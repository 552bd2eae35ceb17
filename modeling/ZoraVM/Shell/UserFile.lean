import ZoraVM.Shell.UserList

namespace ZoraVM.Shell

open Foundation Vfs

section TextMode

-- users.txt is opened in text mode: "\n" is "\r\n" on the disk, and a control-Z ends the file.
def writeText (s : Bytes) : Bytes := s.flatMap fun c => if c = 10 then [13, 10] else [c]

def readText : Bytes → Bytes
  | [] => []
  | c :: cs =>
    if c = 26 then []
    else if c = 13 ∧ cs.head? = some 10 then readText cs
    else c :: readText cs

end TextMode

section Scanning

def colon : UInt8 := 58

def isSpace (c : UInt8) : Bool := c == 32 || (decide (9 ≤ c) && decide (c ≤ 13))

-- "%49[^:]" and "%63[^\n]": one byte at least, and none that is `stop`.
def scanSet (width : Nat) (stop : UInt8) (input : Bytes) : Option (Bytes × Bytes) :=
  let got := (input.take width).takeWhile (· != stop)
  if got = [] then none else some (got, input.drop got.length)

def scanLiteral (c : UInt8) : Bytes → Option Bytes
  | [] => none
  | x :: xs => if x = c then some xs else none

def scanUser (input : Bytes) : Option (User × Bytes) := do
  let (username, rest) ← scanSet (usernameLen - 1) colon input
  let rest ← scanLiteral colon rest
  let (passwordHash, rest) ← scanSet (hashLen - 1) 10 rest
  some (⟨username, passwordHash⟩, rest.dropWhile isSpace)

def scanUsers : Nat → Bytes → List User
  | 0, _ => []
  | room + 1, input =>
    match scanUser input with
    | none => []
    | some (u, rest) => u :: scanUsers room rest

end Scanning

def userLine (u : User) : Bytes := u.username ++ colon :: (u.passwordHash ++ [10])

def saveUsers (users : List User) : Bytes := writeText (users.flatMap userLine)

def loadUsers (file : Option Bytes) (s : UserState) : UserState :=
  match file with
  | none => s
  | some text => { s with userList := scanUsers maxUsers (readText text) }

def UserReachable (s : UserState) : Prop :=
  ∃ calls, Run userStep (fun _ _ => True) (startUp []) calls s

def startsWithSpace (s : Bytes) : Bool := s.head?.any isSpace

-- Only the first name may begin with a blank: the others come after the "\n" of the format.
def storable (users : List User) : Bool :=
  (users.all fun u => !u.username.isEmpty && !u.username.contains colon &&
    !u.username.contains 26) &&
  users.tail.all fun u => !startsWithSpace u.username

variable {s : UserState} {users : List User} {u : User} {input rest username hash : Bytes}

section Text

theorem readText_writeText (h : (26 : UInt8) ∉ input) : readText (writeText input) = input := by
  induction input with
  | nil => rfl
  | cons c cs ih =>
    obtain ⟨hc, hcs⟩ := not_or.mp (mt List.mem_cons.mpr h)
    by_cases hline : c = 10
    · subst hline
      have hwrite : writeText (10 :: cs) = 13 :: 10 :: writeText cs := rfl
      rw [hwrite, readText, if_neg (by decide), if_pos ⟨rfl, rfl⟩, readText, if_neg (by decide),
        if_neg (by simp), ih hcs]
    · have hwrite : writeText (c :: cs) = c :: writeText cs := by simp [writeText, hline]
      have hhead : (writeText cs).head? ≠ some 10 := by
        cases cs with
        | nil => decide
        | cons d ds =>
          by_cases hd : d = 10
          · simp [writeText, hd]
          · simp [writeText, hd]
      rw [hwrite, readText, if_neg (Ne.symm hc), if_neg (fun hcr => hhead hcr.2), ih hcs]

theorem controlZ_notMem_readText (input : Bytes) : (26 : UInt8) ∉ readText input := by
  induction input with
  | nil => exact List.not_mem_nil
  | cons c cs ih =>
    rw [readText]
    split
    · exact List.not_mem_nil
    · next hc =>
      split
      · exact ih
      · exact mt List.mem_cons.mp (not_or.mpr ⟨Ne.symm hc, ih⟩)

end Text

section Hash

theorem digit_of_mem_toDigitsCore {c : Char} {fuel n : Nat} {acc : List Char}
    (h : c ∈ Nat.toDigitsCore 16 fuel n acc) : c ∈ acc ∨ ∃ d < 16, c = Nat.digitChar d := by
  induction fuel generalizing n acc with
  | zero => exact .inl h
  | succ fuel ih =>
    have hlast : ∀ {cs}, c ∈ Nat.digitChar (n % 16) :: cs → c ∈ cs ∨ ∃ d < 16, c = Nat.digitChar d := by
      intro cs hmem
      rcases List.mem_cons.mp hmem with rfl | hmem
      · exact .inr ⟨n % 16, Nat.mod_lt n (by decide), rfl⟩
      · exact .inl hmem
    rw [Nat.toDigitsCore] at h
    split at h
    · exact hlast h
    · rcases ih h with hmem | hdigit
      · exact hlast hmem
      · exact .inr hdigit

theorem plain_of_mem_simpleHash {b : UInt8} (h : b ∈ simpleHash input) : b ≠ 10 ∧ b ≠ 26 := by
  have hdigits : ∀ d < 16, (Nat.digitChar d).toNat.toUInt8 ≠ 10 ∧
      (Nat.digitChar d).toNat.toUInt8 ≠ 26 := by decide +kernel
  have hsalt : ∀ b ∈ str "_salt_zora", b ≠ 10 ∧ b ≠ 26 := by decide +kernel
  rcases List.mem_append.mp (List.mem_of_mem_take h) with hb | hb
  · obtain ⟨c, hc, rfl⟩ := List.mem_map.mp hb
    rw [String.toList_ofList] at hc
    rcases digit_of_mem_toDigitsCore hc with hc | ⟨d, hd, rfl⟩
    · cases hc
    · exact hdigits d hd
  · exact hsalt b hb

theorem simpleHash_ne_nil (input : Bytes) : simpleHash input ≠ [] := by
  have hlen : 0 < (simpleHash input).length := by
    simp [simpleHash, clip, hashLen, str]
  exact List.ne_nil_of_length_pos hlen

end Hash

section Scanned

theorem scanSet_eq {width : Nat} {stop : UInt8} {got : Bytes} (hne : got ≠ [])
    (hlen : got.length ≤ width) (hstop : stop ∉ got) (rest : Bytes) :
    scanSet width stop (got ++ stop :: rest) = some (got, stop :: rest) := by
  have hother : ∀ c ∈ got, (c != stop) = true := by
    intro c hc
    have hne : c ≠ stop := fun he => hstop (he ▸ hc)
    simpa using hne
  have hnone : ((stop :: rest).take (width - got.length)).takeWhile (· != stop) = [] := by
    cases width - got.length <;> simp
  have hgot : ((got ++ stop :: rest).take width).takeWhile (· != stop) = got := by
    rw [List.take_append, List.take_of_length_le hlen, List.takeWhile_append_of_pos hother, hnone,
      List.append_nil]
  simp only [scanSet, hgot, if_neg hne, List.drop_left]

theorem scanSet_some {width : Nat} {stop : UInt8} {got : Bytes}
    (h : scanSet width stop input = some (got, rest)) :
    got ≠ [] ∧ stop ∉ got ∧ input = got ++ rest := by
  unfold scanSet at h
  dsimp only at h
  split at h
  · cases h
  · next hne =>
    obtain ⟨rfl, rfl⟩ := Prod.mk.inj (Option.some.inj h)
    refine ⟨hne, fun hmem => ?_, ?_⟩
    · have hall := List.all_takeWhile (p := (· != stop)) (l := input.take width)
      have hstop := List.all_eq_true.mp hall stop hmem
      simp at hstop
    · have hbegins : (input.take width).takeWhile (· != stop) <+: input :=
        (List.takeWhile_prefix _).trans (List.take_prefix _ _)
      exact (List.prefix_iff_eq_append.mp hbegins).symm

theorem scanLiteral_some {c : UInt8} (h : scanLiteral c input = some rest) : input = c :: rest := by
  cases input with
  | nil => cases h
  | cons x xs =>
    rw [scanLiteral] at h
    split at h
    · next hx => rw [hx, Option.some.inj h]
    · cases h

theorem scanUser_some (h : scanUser input = some (u, rest)) :
    u.username ≠ [] ∧ colon ∉ u.username ∧ u.username.head? = input.head? ∧
      (∀ c ∈ u.username, c ∈ input) ∧ (∀ c ∈ rest, c ∈ input) ∧ startsWithSpace rest = false := by
  obtain ⟨⟨username, afterName⟩, hname, h⟩ := Option.bind_eq_some_iff.mp h
  obtain ⟨afterColon, hcolon, h⟩ := Option.bind_eq_some_iff.mp h
  obtain ⟨⟨hash, afterHash⟩, hhash, h⟩ := Option.bind_eq_some_iff.mp h
  obtain ⟨rfl, rfl⟩ := Prod.mk.inj (Option.some.inj h)
  obtain ⟨hne, hstop, hinput⟩ := scanSet_some hname
  obtain ⟨_, _, hrest⟩ := scanSet_some hhash
  have hsub : ∀ c ∈ afterHash, c ∈ input := by
    intro c hc
    rw [hinput, scanLiteral_some hcolon, hrest]
    simp [hc]
  refine ⟨hne, hstop, ?_, ?_, ?_, ?_⟩
  · rw [hinput, List.head?_append_of_ne_nil _ hne]
  · intro c hc
    rw [hinput]
    exact List.mem_append_left _ hc
  · exact fun c hc => hsub c ((List.dropWhile_suffix isSpace).subset hc)
  · unfold startsWithSpace
    cases hdrop : afterHash.dropWhile isSpace with
    | nil => rfl
    | cons c cs =>
      have hhead := List.head?_dropWhile_not isSpace afterHash
      simpa [hdrop] using hhead

theorem scanUsers_plain {room : Nat} (h : scanUsers room input = u :: users) :
    u.username ≠ [] ∧ u.username.head? = input.head? ∧
      (∀ v ∈ u :: users, v.username ≠ [] ∧ colon ∉ v.username ∧ ∀ c ∈ v.username, c ∈ input) ∧
      ∀ v ∈ users, startsWithSpace v.username = false := by
  induction room generalizing input u users with
  | zero => cases h
  | succ room ih =>
    rw [scanUsers] at h
    split at h
    · cases h
    · next v rest hscan =>
      obtain ⟨rfl, hrest⟩ := List.cons.inj h
      obtain ⟨hne, hstop, hhead, hsub, hrestsub, hspace⟩ := scanUser_some hscan
      refine ⟨hne, hhead, ?_, ?_⟩
      · refine List.forall_mem_cons.mpr ⟨⟨hne, hstop, hsub⟩, fun w hw => ?_⟩
        cases users with
        | nil => cases hw
        | cons x xs =>
          obtain ⟨hwne, hwstop, hwsub⟩ := (ih hrest).2.2.1 w hw
          exact ⟨hwne, hwstop, fun c hc => hrestsub c (hwsub c hc)⟩
      · intro w hw
        cases users with
        | nil => cases hw
        | cons x xs =>
          obtain ⟨_, hxhead, _, hxs⟩ := ih hrest
          rcases List.mem_cons.mp hw with rfl | hw
          · rw [startsWithSpace, hxhead]
            exact hspace
          · exact hxs w hw

end Scanned

section Written

structure Written (u : User) : Prop where
  name_length : u.username.length < usernameLen
  hash_ne_nil : u.passwordHash ≠ []
  hash_length : u.passwordHash.length < hashLen
  hash_plain : ∀ c ∈ u.passwordHash, c ≠ 10 ∧ c ≠ 26

theorem Written.of_simpleHash (hname : username.length < usernameLen) (password : Bytes) :
    Written ⟨username, simpleHash password⟩ := by
  refine ⟨hname, simpleHash_ne_nil password, ?_, fun c hc => plain_of_mem_simpleHash hc⟩
  exact Nat.lt_of_le_of_lt (length_clip_le hashLen _) (by decide)

theorem scanUser_userLine (hu : Written u) (hne : u.username ≠ []) (hcolon : colon ∉ u.username)
    (hrest : startsWithSpace rest = false) : scanUser (userLine u ++ rest) = some (u, rest) := by
  have hname : scanSet (usernameLen - 1) colon
      (u.username ++ colon :: (u.passwordHash ++ 10 :: rest)) =
      some (u.username, colon :: (u.passwordHash ++ 10 :: rest)) :=
    scanSet_eq hne (Nat.le_sub_one_of_lt hu.name_length) hcolon _
  have hplain : (10 : UInt8) ∉ u.passwordHash := fun hmem => (hu.hash_plain 10 hmem).1 rfl
  have hhash : scanSet (hashLen - 1) 10 (u.passwordHash ++ 10 :: rest) =
      some (u.passwordHash, 10 :: rest) :=
    scanSet_eq hu.hash_ne_nil (Nat.le_sub_one_of_lt hu.hash_length) hplain rest
  have hline : userLine u ++ rest = u.username ++ colon :: (u.passwordHash ++ 10 :: rest) := by
    simp [userLine]
  have hskip : (10 :: rest).dropWhile isSpace = rest := by
    have hten : isSpace 10 = true := by decide
    rw [List.dropWhile_cons_of_pos hten]
    cases rest with
    | nil => rfl
    | cons c cs => exact List.dropWhile_cons_of_neg (by simpa [startsWithSpace] using hrest)
  simp [scanUser, hline, hname, scanLiteral, hhash, hskip]

theorem scanUsers_lines {room : Nat} (hroom : users.length ≤ room) (hall : ∀ u ∈ users, Written u)
    (hnames : ∀ u ∈ users, u.username ≠ [] ∧ colon ∉ u.username)
    (htail : ∀ u ∈ users.tail, startsWithSpace u.username = false) :
    scanUsers room (users.flatMap userLine) = users := by
  induction users generalizing room with
  | nil =>
    cases room with
    | zero => rfl
    | succ room => rfl
  | cons u users ih =>
    obtain ⟨hu, husers⟩ := List.forall_mem_cons.mp hall
    obtain ⟨⟨hne, hcolon⟩, hrest⟩ := List.forall_mem_cons.mp hnames
    cases room with
    | zero => simp at hroom
    | succ room =>
      have hnext : startsWithSpace (users.flatMap userLine) = false := by
        cases users with
        | nil => rfl
        | cons v vs =>
          have hv := htail v List.mem_cons_self
          have hvne := (hrest v List.mem_cons_self).1
          unfold startsWithSpace at hv ⊢
          rw [List.flatMap_cons, userLine, List.append_assoc, List.head?_append_of_ne_nil _ hvne]
          exact hv
      have htail' : ∀ v ∈ users.tail, startsWithSpace v.username = false :=
        fun v hv => htail v (List.mem_of_mem_tail hv)
      rw [List.flatMap_cons, scanUsers, scanUser_userLine hu hne hcolon hnext]
      exact congrArg (u :: ·) (ih (by simpa using hroom) husers hrest htail')

end Written

section Law

structure Listed (users : List User) : Prop where
  written : ∀ u ∈ users, Written u
  room : users.length ≤ maxUsers

theorem Listed.change {users' : List User} {set : Option (Bytes × Bytes)} (h : Listed users)
    (hchange : ListChange users users' set) : Listed users' := by
  cases hchange with
  | kept => exact h
  | added hname _ hroom =>
    refine ⟨fun u hu => ?_, by simpa using hroom⟩
    rcases List.mem_append.mp hu with hu | hu
    · exact h.written u hu
    · obtain rfl := List.mem_singleton.mp hu
      exact .of_simpleHash hname _
  | @changed before after x password hlist _ =>
    subst hlist
    refine ⟨fun u hu => ?_, by simpa using h.room⟩
    rcases List.mem_append.mp hu with hu | hu
    · exact h.written u (List.mem_append_left _ hu)
    · rcases List.mem_cons.mp hu with rfl | hu
      · have hx := h.written x (List.mem_append_right _ List.mem_cons_self)
        exact .of_simpleHash hx.name_length password
      · exact h.written u (List.mem_append_right _ (List.mem_cons_of_mem x hu))

theorem UserReachable.listed (h : UserReachable s) : Listed s.userList := by
  obtain ⟨calls, hrun⟩ := h
  have hstart : Listed (startUp []).userList := ⟨fun u hu => absurd hu List.not_mem_nil, by decide⟩
  refine hrun.invariant (P := fun s => Listed s.userList) hstart ?_
  exact fun s c s' hs _ hstep => hs.change (step_change hstep)

theorem storable_iff :
    storable users = true ↔
      (∀ u ∈ users, u.username ≠ [] ∧ colon ∉ u.username ∧ (26 : UInt8) ∉ u.username) ∧
        ∀ u ∈ users.tail, startsWithSpace u.username = false := by
  simp [storable, and_assoc]

theorem storable_of_scanned {room : Nat} (h26 : (26 : UInt8) ∉ input)
    (h : scanUsers room input = users) : storable users = true := by
  cases users with
  | nil => rfl
  | cons u users =>
    obtain ⟨_, _, hall, htail⟩ := scanUsers_plain h
    refine storable_iff.mpr ⟨fun v hv => ?_, htail⟩
    obtain ⟨hne, hcolon, hsub⟩ := hall v hv
    exact ⟨hne, hcolon, fun hmem => h26 (hsub 26 hmem)⟩

theorem scanned_of_storable (hlisted : Listed users) (h : storable users = true) :
    scanUsers maxUsers (readText (saveUsers users)) = users := by
  obtain ⟨hnames, htail⟩ := storable_iff.mp h
  have hplain : (26 : UInt8) ∉ users.flatMap userLine := by
    intro hmem
    obtain ⟨u, hu, hmem⟩ := List.mem_flatMap.mp hmem
    rcases List.mem_append.mp hmem with hmem | hmem
    · exact (hnames u hu).2.2 hmem
    · rcases List.mem_cons.mp hmem with hmem | hmem
      · exact absurd hmem (by decide)
      · rcases List.mem_append.mp hmem with hmem | hmem
        · exact ((hlisted.written u hu).hash_plain 26 hmem).2 rfl
        · exact absurd hmem (by decide)
  rw [saveUsers, readText_writeText hplain]
  exact scanUsers_lines hlisted.room hlisted.written
    (fun u hu => ⟨(hnames u hu).1, (hnames u hu).2.1⟩) htail

theorem saved_users_restored_iff (h : UserReachable s) :
    (loadUsers (some (saveUsers s.userList)) (startUp [])).userList = s.userList ↔
      storable s.userList = true :=
  ⟨storable_of_scanned (controlZ_notMem_readText _), scanned_of_storable h.listed⟩

def addedUsers (names : List String) : UserState :=
  (exec (guarded userStep fun _ _ => true) (startUp [])
    ([.setupRoot ⟨[], typedPassword "secret"⟩, .su [] ⟨[], str "secret" ++ [13]⟩] ++
      names.map fun name => .useradd [str name, str "pass"] ⟨[], []⟩)).getD (startUp [])

theorem reachable_addedUsers {names : List String}
    (h : (exec (guarded userStep fun _ _ => true) (startUp [])
      ([.setupRoot ⟨[], typedPassword "secret"⟩, .su [] ⟨[], str "secret" ++ [13]⟩] ++
        names.map fun name => .useradd [str name, str "pass"] ⟨[], []⟩)).isSome = true) :
    UserReachable (addedUsers names) :=
  ⟨_, (Run.of_exec_isSome h).mono fun _ _ _ => trivial⟩

theorem saved_users_restored_iff_two :
    (loadUsers (some (saveUsers (addedUsers ["amy", "bob smith"]).userList)) (startUp [])).userList =
        (addedUsers ["amy", "bob smith"]).userList ↔
      storable (addedUsers ["amy", "bob smith"]).userList = true :=
  saved_users_restored_iff (reachable_addedUsers (by decide +kernel))

theorem colon_breaks_restoring :
    ¬ ∀ s, UserReachable s →
      (loadUsers (some (saveUsers s.userList)) (startUp [])).userList = s.userList := by
  intro hall
  have hback := hall (addedUsers ["a:b"]) (reachable_addedUsers (by decide +kernel))
  exact absurd hback (by decide +kernel)

end Law

end ZoraVM.Shell

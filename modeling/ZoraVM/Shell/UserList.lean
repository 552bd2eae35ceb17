import ZoraVM.Shell.Identity

namespace ZoraVM.Shell

open Foundation Vfs

section Passwords

def enteredPassword : PasswordEntry → Option Bytes
  | .entered password => some password
  | _ => none

def newPassword (argv : List Bytes) (typed : Typed) : PasswordEntry :=
  match argv with
  | _ :: password :: _ => .entered (clip passwordLen password)
  | _ => promptNewPassword typed.keys

def passwordSet (s : UserState) : UserCall → Option (Bytes × Bytes)
  | .useradd argv typed =>
    if s.currentUser ≠ rootName ∧ s.userList ≠ [] then none
    else (readUsername argv typed).bind fun username =>
      if hasUser s username || maxUsers ≤ s.userList.length then none
      else (enteredPassword (newPassword argv typed)).map fun password => (username, password)
  | .setupRoot typed =>
    if hasUser s rootName || maxUsers ≤ s.userList.length then none
    else (enteredPassword (promptNewPassword typed.keys)).map fun password => (rootName, password)
  | .passwd typed =>
    if !s.isLoggedIn then none
    else
      match promptPassword typed.keys with
      | (.entered oldPassword, rest) =>
        if !passwordVerified s oldPassword then none
        else (enteredPassword (promptNewPassword rest)).map fun password => (s.currentUser, password)
      | _ => none
  | _ => none

end Passwords

inductive ListChange (users : List User) : List User → Option (Bytes × Bytes) → Prop
  | kept : ListChange users users none
  | added {username password : Bytes} : username.length < usernameLen →
      (∀ u ∈ users, u.username ≠ username) → users.length < maxUsers →
      ListChange users (users ++ [⟨username, simpleHash password⟩]) (some (username, password))
  | changed {before after : List User} {u : User} {password : Bytes} :
      users = before ++ u :: after → (∀ v ∈ before, v.username ≠ u.username) →
      ListChange users (before ++ ⟨u.username, simpleHash password⟩ :: after)
        (some (u.username, password))

variable {s s' : UserState} {argv : List Bytes} {typed : Typed} {username password : Bytes}

section Change

theorem clip_simpleHash (password : Bytes) : clip hashLen (simpleHash password) = simpleHash password :=
  clip_clip hashLen _

theorem readUsername_length (h : readUsername argv typed = some username) :
    username.length < usernameLen := by
  unfold readUsername at h
  split at h
  · next name _ =>
    obtain rfl := Option.some.inj h
    exact Nat.lt_of_le_of_lt (length_clip_le usernameLen name) (by decide)
  · split at h
    · cases h
    · obtain rfl := Option.some.inj h
      have htake := (List.takeWhile_prefix (l := typed.stdin.take (usernameLen - 1))
        fun c => c != 10 && c != 0).length_le
      rw [List.length_take] at htake
      simp only [usernameLen] at htake ⊢
      omega

theorem change_addUser (hlen : username.length < usernameLen)
    (hfree : (hasUser s username || decide (maxUsers ≤ s.userList.length)) = false) :
    ListChange s.userList (addUser s username password).userList (some (username, password)) := by
  obtain ⟨hnew, hroom⟩ := Bool.or_eq_false_iff.mp hfree
  have hfresh : ∀ u ∈ s.userList, u.username ≠ username := by simpa [hasUser] using hnew
  have hlist : (addUser s username password).userList =
      s.userList ++ [⟨username, simpleHash password⟩] := by
    rw [addUser, clip_of_length_lt hlen, clip_simpleHash]
  rw [hlist]
  exact .added hlen hfresh (by simpa using hroom)

def prompted (s : UserState) (f : Bytes → UserState) : PasswordEntry → Option UserState
  | .waiting => none
  | .refused => some s
  | .entered password => some (f password)

theorem change_prompted {answer : PasswordEntry} {f : Bytes → UserState}
    (hf : ∀ password, ListChange s.userList (f password).userList (some (username, password)))
    (hstep : prompted s f answer = some s') :
    ListChange s.userList s'.userList
      ((enteredPassword answer).map fun password => (username, password)) := by
  cases answer with
  | waiting => cases hstep
  | refused =>
    obtain rfl := Option.some.inj hstep
    exact .kept
  | entered password =>
    obtain rfl := Option.some.inj hstep
    exact hf password

theorem change_useradd (hstep : useraddCommand s argv typed = some s') :
    ListChange s.userList s'.userList (passwordSet s (.useradd argv typed)) := by
  unfold useraddCommand at hstep
  dsimp only [passwordSet]
  split at hstep
  · next hdenied =>
    obtain rfl := Option.some.inj hstep
    rw [if_pos hdenied]
    exact .kept
  · next hallowed =>
    rw [if_neg hallowed]
    cases hname : readUsername argv typed with
    | none =>
      rw [hname] at hstep
      obtain rfl := Option.some.inj hstep
      exact .kept
    | some username =>
      have hlen := readUsername_length hname
      simp only [hname] at hstep
      simp only [Option.bind_some]
      cases hfree : hasUser s username || decide (maxUsers ≤ s.userList.length) with
      | true =>
        rw [hfree] at hstep
        obtain rfl := Option.some.inj hstep
        exact .kept
      | false =>
        simp only [hfree, Bool.false_eq_true, if_false] at hstep ⊢
        match argv with
        | _ :: password :: _ =>
          obtain rfl := Option.some.inj hstep
          exact change_addUser hlen hfree
        | [] => exact change_prompted (fun _ => change_addUser hlen hfree) hstep
        | [_] => exact change_prompted (fun _ => change_addUser hlen hfree) hstep

theorem change_setupRoot (hstep : setupRootCommand s typed = some s') :
    ListChange s.userList s'.userList (passwordSet s (.setupRoot typed)) := by
  unfold setupRootCommand at hstep
  dsimp only [passwordSet]
  cases hfree : hasUser s rootName || decide (maxUsers ≤ s.userList.length) with
  | true =>
    rw [hfree] at hstep
    obtain rfl := Option.some.inj hstep
    exact .kept
  | false =>
    simp only [hfree, Bool.false_eq_true, if_false] at hstep ⊢
    exact change_prompted (fun _ => change_addUser (by decide) hfree) hstep

theorem setPassword_split {old : Bytes} {users : List User} (new : Bytes)
    (h : (users.find? fun u => u.username == username).any
      fun u => u.passwordHash == simpleHash old) :
    ∃ before u after, users = before ++ u :: after ∧ u.username = username ∧
      (∀ v ∈ before, v.username ≠ username) ∧
      setPassword username old new users = before ++ ⟨username, simpleHash new⟩ :: after := by
  induction users with
  | nil => cases h
  | cons x xs ih =>
    by_cases hx : x.username = username
    · have hold : x.passwordHash = simpleHash old := by simpa [hx] using h
      refine ⟨[], x, xs, rfl, hx, by simp, ?_⟩
      simp [setPassword, hx, hold, clip_simpleHash]
    · rw [List.find?_cons_of_neg (by simpa using hx)] at h
      obtain ⟨before, u, after, hxs, hu, hbefore, hset⟩ := ih h
      refine ⟨x :: before, u, after, by rw [hxs]; rfl, hu, ?_, ?_⟩
      · exact List.forall_mem_cons.mpr ⟨hx, hbefore⟩
      · rw [setPassword, if_neg hx, hset]
        rfl

theorem change_passwd (hstep : passwdCommand s typed = some s') :
    ListChange s.userList s'.userList (passwordSet s (.passwd typed)) := by
  unfold passwdCommand at hstep
  dsimp only [passwordSet]
  cases hin : s.isLoggedIn with
  | false =>
    simp only [hin, Bool.not_false, if_true] at hstep
    obtain rfl := Option.some.inj hstep
    exact .kept
  | true =>
    simp only [hin, Bool.not_true, Bool.false_eq_true, if_false] at hstep ⊢
    rcases hprompt : promptPassword typed.keys with ⟨answer, rest⟩
    cases answer with
    | waiting =>
      simp only [hprompt] at hstep
      cases hstep
    | refused =>
      simp only [hprompt] at hstep ⊢
      obtain rfl := Option.some.inj hstep
      exact .kept
    | entered old =>
      simp only [hprompt] at hstep ⊢
      cases hverified : passwordVerified s old with
      | false =>
        simp only [hverified, Bool.not_false, if_true] at hstep ⊢
        obtain rfl := Option.some.inj hstep
        exact .kept
      | true =>
        simp only [hverified, Bool.not_true, Bool.false_eq_true, if_false] at hstep ⊢
        refine change_prompted (fun new => ?_) hstep
        have hany : (s.userList.find? fun u => u.username == s.currentUser).any
            fun u => u.passwordHash == simpleHash old := by
          unfold passwordVerified at hverified
          split at hverified
          · next u hu => rwa [hu]
          · cases hverified
        obtain ⟨before, u, after, hlist, hu, hbefore, hset⟩ := setPassword_split new hany
        rw [← hu] at hset hbefore ⊢
        dsimp only
        rw [hset]
        exact .changed hlist hbefore

theorem step_change {c : UserCall} (hstep : userStep s c = some s') :
    ListChange s.userList s'.userList (passwordSet s c) := by
  cases c with
  | login argv typed =>
    have hlist : s'.userList = s.userList := by
      unfold userStep loginCommand at hstep
      dsimp only at hstep
      repeat' split at hstep
      all_goals first | (obtain rfl := Option.some.inj hstep; rfl) | cases hstep
    rw [hlist]
    exact .kept
  | logout =>
    have hlist : s'.userList = s.userList := by
      obtain rfl := Option.some.inj hstep
      unfold logoutCommand
      split <;> rfl
    rw [hlist]
    exact .kept
  | su argv typed =>
    have hlist : s'.userList = s.userList := by
      unfold userStep suCommand at hstep
      dsimp only at hstep
      repeat' split at hstep
      all_goals first | (obtain rfl := Option.some.inj hstep; rfl) | cases hstep
    rw [hlist]
    exact .kept
  | useradd argv typed => exact change_useradd hstep
  | setupRoot typed => exact change_setupRoot hstep
  | passwd typed => exact change_passwd hstep

end Change

end ZoraVM.Shell

import ZoraVM.Foundation.Run
import ZoraVM.Shell.Users

namespace ZoraVM.Shell

open Foundation Vfs

inductive UserCall where
  | login (argv : List Bytes) (typed : Typed)
  | logout
  | su (argv : List Bytes) (typed : Typed)
  | useradd (argv : List Bytes) (typed : Typed)
  | setupRoot (typed : Typed)
  | passwd (typed : Typed)
  deriving DecidableEq, Repr

def userStep (s : UserState) : UserCall → Option UserState
  | .login argv typed => loginCommand s argv typed
  | .logout => some (logoutCommand s)
  | .su argv typed => suCommand s argv typed
  | .useradd argv typed => useraddCommand s argv typed
  | .setupRoot typed => setupRootCommand s typed
  | .passwd typed => passwdCommand s typed

-- The globals of the program image after load_users.
def startUp (users : List User) : UserState := ⟨users, guestName, false, guest⟩

def IdentityAgrees (s : UserState) : Prop :=
  s.identity.vfsCurrentUser = s.currentUser ∧
    (s.identity.vfsIsRoot = true ↔ s.currentUser = rootName)

instance (s : UserState) : Decidable (IdentityAgrees s) := inferInstanceAs (Decidable (_ ∧ _))

def keepsUser (s : UserState) : UserCall → Bool
  | .login argv typed =>
    match readUsername argv typed, loginPassword argv typed with
    | some username, .entered password =>
      !credentialsMatch s username password || clip usernameLen username == s.currentUser
    | _, _ => true
  | _ => true

variable {s s' : UserState}

theorem agrees_startUp (users : List User) : IdentityAgrees (startUp users) := by
  refine ⟨rfl, ?_⟩
  simp only [startUp, guest]
  decide

theorem agrees_becomeGuest (s : UserState) (isLoggedIn : Bool) :
    IdentityAgrees (becomeGuest s isLoggedIn) := by
  refine ⟨rfl, ?_⟩
  simp only [becomeGuest]
  decide

theorem agrees_users (h : IdentityAgrees s) (users : List User) :
    IdentityAgrees { s with userList := users } := h

theorem agrees_addUser (h : IdentityAgrees s) (username password : Bytes) :
    IdentityAgrees (addUser s username password) := agrees_users h _

theorem switchedIdentity_agrees {target : Bytes} (hfit : clip usernameLen target = target) :
    (switchedIdentity target).vfsCurrentUser = clip usernameLen target ∧
      ((switchedIdentity target).vfsIsRoot = true ↔ clip usernameLen target = rootName) := by
  rw [hfit]
  by_cases hroot : target = rootName
  · simp [switchedIdentity, hroot, hroot ▸ hfit]
  · simp [switchedIdentity, hroot, hfit]

theorem agrees_login {argv : List Bytes} {typed : Typed} (h : IdentityAgrees s)
    (hkeeps : keepsUser s (.login argv typed) = true)
    (hstep : loginCommand s argv typed = some s') : IdentityAgrees s' := by
  unfold loginCommand at hstep
  cases hname : readUsername argv typed with
  | none =>
    obtain rfl : s = s' := by simpa [hname] using hstep
    exact h
  | some username =>
    cases hpass : loginPassword argv typed with
    | waiting => simp [hname, hpass] at hstep
    | refused =>
      obtain rfl : s = s' := by simpa [hname, hpass] using hstep
      exact h
    | entered password =>
      simp only [keepsUser, hname, hpass, Bool.or_eq_true, Bool.not_eq_true', beq_iff_eq]
        at hkeeps
      simp only [hname, hpass] at hstep
      split at hstep
      · next hmatch =>
        obtain rfl := Option.some.inj hstep
        have hsame : clip usernameLen username = s.currentUser := by
          simpa [hmatch] using hkeeps
        rw [hsame]
        exact h
      · obtain rfl := Option.some.inj hstep
        exact h

theorem agrees_su {argv : List Bytes} {typed : Typed} (h : IdentityAgrees s)
    (hstep : suCommand s argv typed = some s') : IdentityAgrees s' := by
  have hfit : clip usernameLen ((argv.head?.map (clip usernameLen)).getD rootName) =
      (argv.head?.map (clip usernameLen)).getD rootName := by
    cases argv with
    | nil => decide
    | cons name argv => exact clip_clip usernameLen name
  revert hfit hstep
  unfold suCommand
  generalize (argv.head?.map (clip usernameLen)).getD rootName = target
  intro hstep hfit
  dsimp only at hstep
  split at hstep
  · obtain rfl := Option.some.inj hstep
    exact agrees_becomeGuest s true
  · split at hstep
    · cases hstep
    · obtain rfl := Option.some.inj hstep
      exact h
    · split at hstep
      · obtain rfl := Option.some.inj hstep
        exact switchedIdentity_agrees hfit
      · obtain rfl := Option.some.inj hstep
        exact h

theorem agrees_newPassword {keys : Bytes} {f : Bytes → UserState} (h : IdentityAgrees s)
    (hf : ∀ password, IdentityAgrees (f password))
    (hstep : (match promptNewPassword keys with
      | .waiting => none
      | .refused => some s
      | .entered password => some (f password)) = some s') : IdentityAgrees s' := by
  split at hstep
  · cases hstep
  · obtain rfl := Option.some.inj hstep
    exact h
  · obtain rfl := Option.some.inj hstep
    exact hf _

theorem agrees_useradd {argv : List Bytes} {typed : Typed} (h : IdentityAgrees s)
    (hstep : useraddCommand s argv typed = some s') : IdentityAgrees s' := by
  unfold useraddCommand at hstep
  split at hstep
  · obtain rfl := Option.some.inj hstep
    exact h
  · split at hstep
    · obtain rfl := Option.some.inj hstep
      exact h
    · split at hstep
      · obtain rfl := Option.some.inj hstep
        exact h
      · split at hstep
        · obtain rfl := Option.some.inj hstep
          exact agrees_addUser h _ _
        · exact agrees_newPassword h (fun password => agrees_addUser h _ password) hstep

theorem agrees_setupRoot {typed : Typed} (h : IdentityAgrees s)
    (hstep : setupRootCommand s typed = some s') : IdentityAgrees s' := by
  unfold setupRootCommand at hstep
  split at hstep
  · obtain rfl := Option.some.inj hstep
    exact h
  · exact agrees_newPassword h (fun password => agrees_addUser h _ password) hstep

theorem agrees_passwd {typed : Typed} (h : IdentityAgrees s)
    (hstep : passwdCommand s typed = some s') : IdentityAgrees s' := by
  unfold passwdCommand at hstep
  split at hstep
  · obtain rfl := Option.some.inj hstep
    exact h
  · split at hstep
    · cases hstep
    · obtain rfl := Option.some.inj hstep
      exact h
    · split at hstep
      · obtain rfl := Option.some.inj hstep
        exact h
      · exact agrees_newPassword h (fun password => agrees_users h _) hstep

theorem agrees_step {c : UserCall} (h : IdentityAgrees s) (hkeeps : keepsUser s c = true)
    (hstep : userStep s c = some s') : IdentityAgrees s' := by
  cases c with
  | login argv typed => exact agrees_login h hkeeps hstep
  | logout =>
    obtain rfl := Option.some.inj hstep
    unfold logoutCommand
    split
    · exact agrees_becomeGuest s false
    · exact h
  | su argv typed => exact agrees_su h hstep
  | useradd argv typed => exact agrees_useradd h hstep
  | setupRoot typed => exact agrees_setupRoot h hstep
  | passwd typed => exact agrees_passwd h hstep

def typedPassword (password : String) : Bytes := str password ++ [13] ++ str password ++ [13]

def sampleSession : List UserCall :=
  [.setupRoot ⟨[], typedPassword "secret"⟩, .su [] ⟨[], typedPassword "secret"⟩,
    .useradd [str "amy"] ⟨[], typedPassword "hello"⟩,
    .passwd ⟨[], str "secret" ++ [13] ++ typedPassword "other"⟩,
    .su [str "amy"] ⟨[], typedPassword "hello"⟩, .login [str "amy", str "hello"] ⟨[], []⟩, .logout]

def rootLogin : List UserCall :=
  [.setupRoot ⟨[], typedPassword "secret"⟩, .login [str "root"] ⟨[], typedPassword "secret"⟩]

end ZoraVM.Shell

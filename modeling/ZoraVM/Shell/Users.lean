import ZoraVM.Vfs.State

namespace ZoraVM.Shell

open Foundation Vfs

def maxUsers : Nat := 100
def usernameLen : Nat := 50
def passwordLen : Nat := 50
def hashLen : Nat := 64

structure User where
  username : Bytes
  passwordHash : Bytes
  deriving DecidableEq, Repr

structure UserState where
  userList : List User
  currentUser : Bytes
  isLoggedIn : Bool
  identity : Identity
  deriving DecidableEq, Repr

-- What a command finds on stdin and on the keyboard.
structure Typed where
  stdin : Bytes
  keys : Bytes
  deriving DecidableEq, Repr

section Passwords

-- char is signed and unsigned long has 32 bits on the one target platform.
def hashStep (hash : BitVec 32) (c : UInt8) : BitVec 32 :=
  (hash <<< 5) + hash + c.toBitVec.signExtend 32

def simpleHash (input : Bytes) : Bytes :=
  clip hashLen (str (String.ofList (Nat.toDigits 16 (input.foldl hashStep 5381).toNat)) ++
    str "_salt_zora")

-- The keys read so far are reversed in `password`. `none` waits for a key that is not there.
def readKeys (maxLen : Nat) (password : Bytes) : Bytes → Option (Bytes × Bytes)
  | [] => if maxLen ≤ password.length + 1 then some (password.reverse, []) else none
  | ch :: keys =>
    if maxLen ≤ password.length + 1 then some (password.reverse, ch :: keys)
    else if ch = 13 ∨ ch = 10 then some (password.reverse, keys)
    else if ch = 8 ∨ ch = 127 then readKeys maxLen password.tail keys
    else if 32 ≤ ch ∧ ch ≤ 126 then readKeys maxLen (ch :: password) keys
    else readKeys maxLen password keys

def securePasswordInput (keys : Bytes) : Option (Bytes × Bytes) := readKeys passwordLen [] keys

-- argv[1], or the line fgets takes from stdin, without its newline; `none` at the end of stdin.
def readUsername (argv : List Bytes) (typed : Typed) : Option Bytes :=
  match argv with
  | name :: _ => some (clip usernameLen name)
  | [] =>
    if typed.stdin = [] then none
    else some ((typed.stdin.take (usernameLen - 1)).takeWhile fun c => c != 10 && c != 0)

inductive PasswordEntry where
  | waiting
  | refused
  | entered (password : Bytes)
  deriving DecidableEq, Repr

def promptPassword (keys : Bytes) : PasswordEntry × Bytes :=
  match securePasswordInput keys with
  | none => (.waiting, [])
  | some ([], rest) => (.refused, rest)
  | some (password, rest) => (.entered password, rest)

def promptNewPassword (keys : Bytes) : PasswordEntry :=
  match promptPassword keys with
  | (.entered password, rest) =>
    match promptPassword rest with
    | (.entered confirmation, _) => if password = confirmation then .entered password else .refused
    | (answer, _) => answer
  | (answer, _) => answer

end Passwords

section Commands

variable (s : UserState)

def guestName : Bytes := str "guest"
def rootName : Bytes := str "root"

def addUser (username password : Bytes) : UserState :=
  { s with userList := s.userList ++
      [⟨clip usernameLen username, clip hashLen (simpleHash password)⟩] }

def hasUser (username : Bytes) : Bool := s.userList.any fun u => u.username == username

def credentialsMatch (username password : Bytes) : Bool :=
  s.userList.any fun u => u.username == username && u.passwordHash == simpleHash password

def becomeGuest (isLoggedIn : Bool) : UserState :=
  { s with
    currentUser := guestName
    isLoggedIn := isLoggedIn
    identity := ⟨guestName, str "users", false⟩ }

-- Every command returns the state after it, or `none` while it waits for keys.

def useraddCommand (argv : List Bytes) (typed : Typed) : Option UserState :=
  if s.currentUser ≠ rootName ∧ s.userList ≠ [] then some s
  else
    match readUsername argv typed with
    | none => some s
    | some username =>
      if hasUser s username || maxUsers ≤ s.userList.length then some s
      else
        match argv with
        | _ :: password :: _ => some (addUser s username (clip passwordLen password))
        | _ =>
          match promptNewPassword typed.keys with
          | .waiting => none
          | .refused => some s
          | .entered password => some (addUser s username password)

def loginPassword (argv : List Bytes) (typed : Typed) : PasswordEntry :=
  match argv with
  | _ :: password :: _ => .entered (clip passwordLen password)
  | _ => (promptPassword typed.keys).1

def loginCommand (argv : List Bytes) (typed : Typed) : Option UserState :=
  match readUsername argv typed with
  | none => some s
  | some username =>
    match loginPassword argv typed with
    | .waiting => none
    | .refused => some s
    | .entered password =>
      if credentialsMatch s username password then
        some { s with currentUser := clip usernameLen username, isLoggedIn := true }
      else some s

def logoutCommand : UserState := if s.isLoggedIn then becomeGuest s false else s

-- The first entry of the current user decides.
def setPassword (username oldPassword newPassword : Bytes) : List User → List User
  | [] => []
  | u :: us =>
    if u.username = username then
      if u.passwordHash = simpleHash oldPassword then
        { u with passwordHash := clip hashLen (simpleHash newPassword) } :: us
      else u :: us
    else u :: setPassword username oldPassword newPassword us

def passwordVerified (password : Bytes) : Bool :=
  match s.userList.find? fun u => u.username == s.currentUser with
  | some u => u.passwordHash == simpleHash password
  | none => false

def passwdCommand (typed : Typed) : Option UserState :=
  if !s.isLoggedIn then some s
  else
    match promptPassword typed.keys with
    | (.waiting, _) => none
    | (.refused, _) => some s
    | (.entered oldPassword, rest) =>
      if !passwordVerified s oldPassword then some s
      else
        match promptNewPassword rest with
        | .waiting => none
        | .refused => some s
        | .entered newPassword =>
          some { s with userList := setPassword s.currentUser oldPassword newPassword s.userList }

def switchedIdentity (target : Bytes) : Identity :=
  if target = rootName then ⟨clip usernameLen target, rootName, true⟩
  else ⟨clip usernameLen target, str "users", false⟩

def suCommand (argv : List Bytes) (typed : Typed) : Option UserState :=
  let target := (argv.head?.map (clip usernameLen)).getD rootName
  if target = guestName then some (becomeGuest s true)
  else
    match (promptPassword typed.keys).1 with
    | .waiting => none
    | .refused => some s
    | .entered password =>
      if credentialsMatch s target password then
        some { s with
          currentUser := clip usernameLen target
          isLoggedIn := true
          identity := switchedIdentity target }
      else some s

def setupRootCommand (typed : Typed) : Option UserState :=
  if hasUser s rootName || maxUsers ≤ s.userList.length then some s
  else
    match promptNewPassword typed.keys with
    | .waiting => none
    | .refused => some s
    | .entered password => some (addUser s rootName password)

end Commands

end ZoraVM.Shell

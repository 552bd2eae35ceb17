import ZoraVM.Shell.UserList

namespace ZoraVM.Shell

open Foundation Vfs

section Reports

variable (s : UserState)

def loginReport (argv : List Bytes) (typed : Typed) : Option (Bool × UserState) :=
  match readUsername argv typed with
  | none => some (false, s)
  | some username =>
    match loginPassword argv typed with
    | .waiting => none
    | .refused => some (false, s)
    | .entered password =>
      if credentialsMatch s username password then
        some (true, { s with currentUser := clip usernameLen username, isLoggedIn := true })
      else some (false, s)

def suTarget (argv : List Bytes) : Bytes := (argv.head?.map (clip usernameLen)).getD rootName

def suReport (argv : List Bytes) (typed : Typed) : Option (Bool × UserState) :=
  if suTarget argv = guestName then some (true, becomeGuest s true)
  else
    match (promptPassword typed.keys).1 with
    | .waiting => none
    | .refused => some (false, s)
    | .entered password =>
      if credentialsMatch s (suTarget argv) password then
        some (true, { s with
          currentUser := clip usernameLen (suTarget argv)
          isLoggedIn := true
          identity := switchedIdentity (suTarget argv) })
      else some (false, s)

theorem loginReport_state (argv : List Bytes) (typed : Typed) :
    (loginReport s argv typed).map Prod.snd = loginCommand s argv typed := by
  unfold loginReport loginCommand
  cases readUsername argv typed with
  | none => rfl
  | some username =>
    cases loginPassword argv typed with
    | waiting => rfl
    | refused => rfl
    | entered password =>
      dsimp only
      by_cases hmatch : credentialsMatch s username password = true
      · rw [if_pos hmatch, if_pos hmatch]
        rfl
      · rw [if_neg hmatch, if_neg hmatch]
        rfl

theorem suReport_state (argv : List Bytes) (typed : Typed) :
    (suReport s argv typed).map Prod.snd = suCommand s argv typed := by
  unfold suReport suCommand
  change _ = if suTarget argv = guestName then _ else _
  by_cases hguest : suTarget argv = guestName
  · rw [if_pos hguest, if_pos hguest]
    rfl
  · rw [if_neg hguest, if_neg hguest]
    cases (promptPassword typed.keys).1 with
    | waiting => rfl
    | refused => rfl
    | entered password =>
      change _ = if credentialsMatch s (suTarget argv) password = true then _ else _
      dsimp only
      by_cases hmatch : credentialsMatch s (suTarget argv) password = true
      · rw [if_pos hmatch, if_pos hmatch]
        rfl
      · rw [if_neg hmatch, if_neg hmatch]
        rfl

end Reports

def auditedStep (t : UserState × List (Bytes × Bytes)) (c : UserCall) :
    Option (UserState × List (Bytes × Bytes)) :=
  (userStep t.1 c).map fun s => (s, (passwordSet t.1 c).toList ++ t.2)

def lastSet (ledger : List (Bytes × Bytes)) (username : Bytes) : Option Bytes :=
  (ledger.find? fun e => e.1 = username).map Prod.snd

structure LedgerKept (users : List User) (ledger : List (Bytes × Bytes)) : Prop where
  distinct : (users.map User.username).Nodup
  hashes : ∀ u ∈ users, ∃ password, lastSet ledger u.username = some password ∧
    u.passwordHash = simpleHash password

variable {users users' : List User} {ledger : List (Bytes × Bytes)} {s : UserState}
variable {calls : List UserCall} {username p q : Bytes}

section Ledger

theorem lastSet_cons_self (ledger : List (Bytes × Bytes)) (username password : Bytes) :
    lastSet ((username, password) :: ledger) username = some password := by simp [lastSet]

theorem lastSet_cons_of_ne {username' : Bytes} (h : username ≠ username') (password : Bytes) :
    lastSet ((username, password) :: ledger) username' = lastSet ledger username' := by
  simp [lastSet, h]

theorem LedgerKept.add {password : Bytes} (h : LedgerKept users ledger)
    (hfresh : ∀ u ∈ users, u.username ≠ username) :
    LedgerKept (users ++ [⟨username, simpleHash password⟩]) ((username, password) :: ledger) := by
  refine ⟨?_, fun u hu => ?_⟩
  · rw [List.map_append, List.map_singleton]
    refine List.nodup_append.mpr ⟨h.distinct, List.nodup_singleton _, ?_⟩
    intro x hx y hy
    obtain ⟨u, hu, rfl⟩ := List.mem_map.mp hx
    obtain rfl := List.mem_singleton.mp hy
    exact hfresh u hu
  · rcases List.mem_append.mp hu with hu | hu
    · obtain ⟨old, hold, hhash⟩ := h.hashes u hu
      exact ⟨old, (lastSet_cons_of_ne (hfresh u hu).symm password).trans hold, hhash⟩
    · obtain rfl := List.mem_singleton.mp hu
      exact ⟨password, lastSet_cons_self ledger username password, rfl⟩

theorem LedgerKept.replace {before after : List User} {x : User} {password : Bytes}
    (h : LedgerKept (before ++ x :: after) ledger) :
    LedgerKept (before ++ ⟨x.username, simpleHash password⟩ :: after)
      ((x.username, password) :: ledger) := by
  have hnames : (before ++ ⟨x.username, simpleHash password⟩ :: after).map User.username =
      (before ++ x :: after).map User.username := by simp
  have hnodup := h.distinct
  rw [List.map_append, List.map_cons, List.nodup_middle, ← List.map_append] at hnodup
  have hold : ∀ v ∈ before ++ after, ∃ old,
      lastSet ((x.username, password) :: ledger) v.username = some old ∧
      v.passwordHash = simpleHash old := by
    intro v hv
    have hother : x.username ≠ v.username := fun he =>
      (List.nodup_cons.mp hnodup).1 (he ▸ List.mem_map_of_mem hv)
    have hmem : v ∈ before ++ x :: after := by
      rcases List.mem_append.mp hv with hv | hv
      · exact List.mem_append_left _ hv
      · exact List.mem_append_right _ (List.mem_cons_of_mem x hv)
    obtain ⟨old, hlast, hhash⟩ := h.hashes v hmem
    exact ⟨old, (lastSet_cons_of_ne hother password).trans hlast, hhash⟩
  refine ⟨hnames ▸ h.distinct, fun u hu => ?_⟩
  rcases List.mem_append.mp hu with hu | hu
  · exact hold u (List.mem_append_left _ hu)
  · rcases List.mem_cons.mp hu with rfl | hu
    · exact ⟨password, lastSet_cons_self ledger x.username password, rfl⟩
    · exact hold u (List.mem_append_right _ hu)

theorem LedgerKept.change {set : Option (Bytes × Bytes)} (h : LedgerKept users ledger)
    (hchange : ListChange users users' set) : LedgerKept users' (set.toList ++ ledger) := by
  cases hchange with
  | kept => exact h
  | added _ hfresh _ => exact h.add hfresh
  | changed hlist _ =>
    subst hlist
    exact h.replace

theorem ledgerKept_run
    (hrun : Run auditedStep (fun _ _ => True) (startUp [], []) calls (s, ledger)) :
    LedgerKept s.userList ledger := by
  have hstart : LedgerKept (startUp []).userList [] :=
    ⟨List.nodup_nil, fun u hu => absurd hu List.not_mem_nil⟩
  refine hrun.invariant (P := fun t => LedgerKept t.1.userList t.2) hstart ?_
  intro t c t' ht _ hstep
  obtain ⟨s', hs', rfl⟩ := Option.map_eq_some_iff.mp hstep
  exact ht.change (step_change hs')

theorem credentialsMatch_iff (h : LedgerKept s.userList ledger) (hlast : lastSet ledger username = some q)
    (hmem : hasUser s username = true) :
    credentialsMatch s username p = true ↔ simpleHash p = simpleHash q := by
  have hof : ∀ u ∈ s.userList, u.username = username → u.passwordHash = simpleHash q := by
    rintro u hu rfl
    obtain ⟨password, hpassword, hhash⟩ := h.hashes u hu
    obtain rfl := Option.some.inj (hpassword.symm.trans hlast)
    exact hhash
  obtain ⟨u, hu, hname⟩ : ∃ u ∈ s.userList, u.username = username := by simpa [hasUser] using hmem
  simp only [credentialsMatch, List.any_eq_true, Bool.and_eq_true, beq_iff_eq]
  constructor
  · rintro ⟨v, hv, hvname, hvhash⟩
    exact hvhash.symm.trans (hof v hv hvname)
  · intro heq
    exact ⟨u, hu, hname, (hof u hu hname).trans heq.symm⟩

end Ledger

section Law

def LoginTakes (s : UserState) (username p : Bytes) (taken : Prop) : Prop :=
  ∀ argv typed, readUsername argv typed = some username → loginPassword argv typed = .entered p →
    ((loginReport s argv typed).map Prod.fst = some true ↔ taken)

def SuTakes (s : UserState) (username p : Bytes) (taken : Prop) : Prop :=
  ∀ argv typed, suTarget argv = username → (promptPassword typed.keys).1 = .entered p →
    ((suReport s argv typed).map Prod.fst = some true ↔ taken)

theorem loginTakes (s : UserState) (username p : Bytes) :
    LoginTakes s username p (credentialsMatch s username p = true) := by
  intro argv typed hname hpassword
  simp only [loginReport, hname, hpassword]
  by_cases hmatch : credentialsMatch s username p = true
  · simp [hmatch]
  · simp [hmatch]

theorem suTakes (s : UserState) (username p : Bytes) :
    SuTakes s username p (username = guestName ∨ credentialsMatch s username p = true) := by
  rintro argv typed rfl hpassword
  unfold suReport
  by_cases hguest : suTarget argv = guestName
  · simp [hguest]
  · rw [if_neg hguest, hpassword]
    by_cases hmatch : credentialsMatch s (suTarget argv) p = true
    · simp [hguest, hmatch]
    · simp [hguest, hmatch]

theorem passwords_taken_by_hash
    (hrun : Run auditedStep (fun _ _ => True) (startUp [], []) calls (s, ledger))
    (huser : hasUser s username = true) :
    ∃ q, lastSet ledger username = some q ∧ ∀ p,
      LoginTakes s username p (simpleHash p = simpleHash q) ∧
      SuTakes s username p (username = guestName ∨ simpleHash p = simpleHash q) := by
  have hkept := ledgerKept_run hrun
  obtain ⟨u, hu, rfl⟩ : ∃ u ∈ s.userList, u.username = username := by simpa [hasUser] using huser
  obtain ⟨q, hlast, _⟩ := hkept.hashes u hu
  refine ⟨q, hlast, fun p => ⟨?_, ?_⟩⟩
  · rw [← credentialsMatch_iff hkept hlast huser]
    exact loginTakes s u.username p
  · rw [← credentialsMatch_iff hkept hlast huser]
    exact suTakes s u.username p

def auditedRoot (password : String) : UserState × List (Bytes × Bytes) :=
  (exec (guarded auditedStep fun _ _ => true) (startUp [], [])
    [.setupRoot ⟨[], typedPassword password⟩]).getD (startUp [], [])

theorem run_auditedRoot (password : String)
    (h : (exec (guarded auditedStep fun _ _ => true) (startUp [], [])
      [.setupRoot ⟨[], typedPassword password⟩]).isSome = true) :
    Run auditedStep (fun _ _ => True) (startUp [], []) [.setupRoot ⟨[], typedPassword password⟩]
      (auditedRoot password) :=
  (Run.of_exec_isSome h).mono fun _ _ _ => trivial

theorem passwords_taken_by_hash_root :
    ∃ q, lastSet (auditedRoot "secret").2 rootName = some q ∧ ∀ p,
      LoginTakes (auditedRoot "secret").1 rootName p (simpleHash p = simpleHash q) ∧
      SuTakes (auditedRoot "secret").1 rootName p
        (rootName = guestName ∨ simpleHash p = simpleHash q) :=
  passwords_taken_by_hash (run_auditedRoot "secret" (by decide +kernel)) (by decide +kernel)

theorem other_password_taken :
    ¬ ∀ (calls : List UserCall) (s : UserState) (ledger : List (Bytes × Bytes))
      (username p q : Bytes),
      Run auditedStep (fun _ _ => True) (startUp [], []) calls (s, ledger) →
      hasUser s username = true → lastSet ledger username = some q → 1 ≤ p.length → p.length ≤ 49 →
      LoginTakes s username p (p = q) ∧ SuTakes s username p (p = q) := by
  intro hall
  have hrun := run_auditedRoot "ab" (by decide +kernel)
  have htakes := (hall _ (auditedRoot "ab").1 (auditedRoot "ab").2 rootName (str "bA") (str "ab")
    hrun (by decide +kernel) (by decide +kernel) (by decide) (by decide)).1
  have hlogin := htakes [rootName, str "bA"] ⟨[], []⟩ (by decide +kernel) (by decide +kernel)
  exact absurd (hlogin.mp (by decide +kernel)) (by decide)

end Law

end ZoraVM.Shell

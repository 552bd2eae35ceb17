import ZoraVM.Kernel.SocketTable

namespace ZoraVM.Kernel

open Foundation

def Socket.localPort (sock : Socket) : BitVec 16 := ntohs sock.localAddr.port

def Socket.Listens (sock : Socket) : Prop :=
  sock.type = sockStream ∧ sock.state = .listen ∧ sock.localPort ≠ 0

instance : DecidablePred Socket.Listens := fun sock =>
  inferInstanceAs (Decidable (sock.type = sockStream ∧ sock.state = .listen ∧ sock.localPort ≠ 0))

def SharesPort (a b : Socket) : Prop := a.Listens ∧ b.Listens ∧ a.localPort = b.localPort

instance : DecidableRel SharesPort := fun a b =>
  inferInstanceAs (Decidable (a.Listens ∧ b.Listens ∧ a.localPort = b.localPort))

def OneListener (s : NetStack) : Prop := (entries s.sockets).Pairwise fun a b => ¬ SharesPort a b

instance : DecidablePred OneListener := fun s =>
  inferInstanceAs (Decidable ((entries s.sockets).Pairwise fun a b => ¬ SharesPort a b))

def listenClear (s : NetStack) : NetCall → Bool
  | .listen sockfd _ =>
    match findSocket s sockfd with
    | none => true
    | some (i, sock) => !(sock.type = sockStream && sock.localPort ≠ 0 &&
        anyOther s i fun other => other.Listens ∧ other.localPort = sock.localPort)
  | _ => true

section Listeners

variable {s t : NetStack} {c : NetCall} {a : Int} {sock other : Socket} {pre post : List (Option Socket)}

theorem SharesPort.symm {a b : Socket} (h : SharesPort a b) : SharesPort b a :=
  ⟨h.2.1, h.1, h.2.2.symm⟩

theorem listening_sharesPort (htype : sock.type = sockStream) (backlog : Int) (other : Socket) :
    SharesPort { sock with state := .listen, backlog := backlog } other ↔
      sock.localPort ≠ 0 ∧ other.Listens ∧ other.localPort = sock.localPort := by
  constructor
  · rintro ⟨⟨-, -, hport⟩, hother, hsame⟩
    exact ⟨hport, hother, hsame.symm⟩
  · rintro ⟨hport, hother, hsame⟩
    exact ⟨⟨htype, rfl, hport⟩, hother, hsame.symm⟩

theorem oneListener_filled (pre post : List (Option Socket)) (sock : Socket) :
    (entries (pre ++ some sock :: post)).Pairwise (fun a b => ¬ SharesPort a b) ↔
      (entries pre ++ entries post).Pairwise (fun a b => ¬ SharesPort a b) ∧
        ∀ other ∈ entries pre ++ entries post, ¬ SharesPort sock other := by
  rw [entries_filled, List.pairwise_middle fun {a b} h hshares => h hshares.symm, List.pairwise_cons,
    and_comm]

theorem anyOther_split {i : Nat} {f : Socket → Bool}
    (hset : ∀ o, s.sockets.set i o = pre ++ o :: post) :
    anyOther s i f = (entries pre ++ entries post).any f := by
  have hany : ∀ l : List (Option Socket), l.any (fun slot => slot.any f) = (entries l).any f := by
    intro l
    induction l with
    | nil => rfl
    | cons slot l ih =>
      cases slot with
      | none => exact ih
      | some sock =>
        change (f sock || l.any fun slot => slot.any f) = (f sock || (entries l).any f)
        rw [ih]
  rw [anyOther, hset, hany, entries_empty]

theorem oneListener_fill (hs : s.sockets = pre ++ none :: post) (h : OneListener s)
    (hsock : ¬ sock.Listens) (ht : t.sockets = pre ++ some sock :: post) : OneListener t := by
  rw [OneListener, hs, entries_empty] at h
  rw [OneListener, ht, oneListener_filled]
  exact ⟨h, fun other _ hshares => hsock hshares.1⟩

theorem oneListener_change (hs : s.sockets = pre ++ some sock :: post) (h : OneListener s)
    {sock' : Socket} (hclear : ∀ other ∈ entries pre ++ entries post, ¬ SharesPort sock' other)
    (ht : t.sockets = pre ++ some sock' :: post) : OneListener t := by
  rw [OneListener, hs, oneListener_filled] at h
  rw [OneListener, ht, oneListener_filled]
  exact ⟨h.1, hclear⟩

theorem socket_oneListener (h : OneListener s) (family type protocol : Int) (seq : Rand) :
    OneListener (netstackSocket s family type protocol seq).1 := by
  rcases netstackSocket_cases s family type protocol seq with
    ⟨-, hfails⟩ | ⟨-, pre, post, hl, hmade⟩
  · rw [hfails]
    exact h
  · rw [hmade]
    exact oneListener_fill hl h (fun hlistens => by cases hlistens.2.1) rfl

theorem bind_oneListener (h : OneListener s) (sockfd : Int) (addr : SocketAddress) :
    OneListener (netstackBind s sockfd addr).1 := by
  unfold netstackBind
  cases hfound : findSocket s sockfd with
  | none => exact h
  | some found =>
    obtain ⟨i, sock⟩ := found
    obtain ⟨pre, post, hl, -, hset⟩ := findSocket_some hfound
    dsimp only
    split
    · exact h
    · next hfree =>
      refine oneListener_change hl h (fun other hmem hshares => ?_) (hset _)
      rw [anyOther_split hset] at hfree
      exact hfree (List.any_eq_true.mpr ⟨other, hmem, decide_eq_true hshares.2.2.symm⟩)

theorem accept_oneListener (h : OneListener s) (sockfd : Int) (addr : Option SocketAddress)
    (seq port octet : Rand) : OneListener (netstackAccept s sockfd addr seq port octet).1 := by
  unfold netstackAccept
  cases hfound : findSocket s sockfd with
  | none => exact h
  | some found =>
    obtain ⟨i, sock⟩ := found
    have hmade := socket_oneListener h sock.family sock.type sock.protocol seq
    dsimp only
    split
    · exact h
    · split
      · exact hmade
      · split
        · exact hmade
        · next hnew =>
          obtain ⟨pre, post, hl, -, hset⟩ := findSocket_some hnew
          refine oneListener_change hl hmade (fun other _ hshares => ?_) (hset _)
          cases hshares.1.2.1

theorem connect_oneListener (h : OneListener s) (sockfd : Int) (addr : SocketAddress) :
    OneListener (netstackConnect s sockfd addr).1 := by
  unfold netstackConnect
  cases hfound : findSocket s sockfd with
  | none => exact h
  | some found =>
    obtain ⟨i, sock⟩ := found
    obtain ⟨pre, post, hl, -, hset⟩ := findSocket_some hfound
    dsimp only
    split
    · refine oneListener_change hl h (fun other _ hshares => ?_) (hset _)
      cases hshares.1.2.1
    · next hudp =>
      refine oneListener_change hl h (fun other _ hshares => ?_) (hset _)
      exact hudp hshares.1.1

theorem close_oneListener (h : OneListener s) (sockfd : Int) :
    OneListener (netstackClose s sockfd).1 := by
  unfold netstackClose
  cases hfound : findSocket s sockfd with
  | none => exact h
  | some found =>
    obtain ⟨i, sock⟩ := found
    obtain ⟨pre, post, hl, -, hset⟩ := findSocket_some hfound
    rw [OneListener, hl, oneListener_filled] at h
    change (entries (s.sockets.set i none)).Pairwise _
    rw [hset, entries_empty]
    exact h.1

theorem listen_oneListener_iff (h : OneListener s) (sockfd backlog : Int) :
    OneListener (netstackListen s sockfd backlog).1 ↔
      listenClear s (.listen sockfd backlog) = true := by
  cases hfound : findSocket s sockfd with
  | none =>
    simp only [netstackListen, listenClear, hfound]
    exact iff_of_true h trivial
  | some found =>
    obtain ⟨i, sock⟩ := found
    obtain ⟨pre, post, hl, -, hset⟩ := findSocket_some hfound
    simp only [netstackListen, listenClear, hfound]
    split
    · next hudp => exact iff_of_true h (by simp [hudp])
    · next hstream =>
      have hstream : sock.type = sockStream := not_not.mp hstream
      rw [OneListener, hl, oneListener_filled] at h
      rw [OneListener, show (s.put i _).sockets = _ from hset _, oneListener_filled, and_iff_right h.1,
        anyOther_split hset]
      simp only [listening_sharesPort hstream]
      simp only [hstream, decide_true, Bool.true_and, Bool.not_eq_true', Bool.and_eq_false_iff,
        List.any_eq_false, decide_eq_false_iff_not, decide_eq_true_eq]
      constructor
      · intro hall
        by_cases hport : sock.localPort = 0
        · exact .inl fun hne => hne hport
        · exact .inr fun other hmem hshares => hall other hmem ⟨hport, hshares⟩
      · rintro (hzero | hnone) other hmem ⟨hport, hshares⟩
        · exact hzero hport
        · exact hnone other hmem hshares

theorem oneListener_table (h : OneListener s) (htable : SameTable s t) : OneListener t := by
  rw [OneListener, htable.1]
  exact h

theorem oneListener_call_iff (h : OneListener s) (hcall : netCall s c = some (t, a)) :
    OneListener t ↔ listenClear s c = true := by
  cases c with
  | listen sockfd backlog =>
    obtain rfl := (Prod.mk.inj (Option.some.inj hcall)).1
    exact listen_oneListener_iff h sockfd backlog
  | socket family type protocol seq =>
    obtain rfl := (Prod.mk.inj (Option.some.inj hcall)).1
    exact iff_of_true (socket_oneListener h family type protocol seq) rfl
  | bind sockfd addr =>
    obtain rfl := (Prod.mk.inj (Option.some.inj hcall)).1
    exact iff_of_true (bind_oneListener h sockfd addr) rfl
  | accept sockfd addr seq port octet =>
    obtain rfl := (Prod.mk.inj (Option.some.inj hcall)).1
    exact iff_of_true (accept_oneListener h sockfd addr seq port octet) rfl
  | connect sockfd addr =>
    obtain rfl := (Prod.mk.inj (Option.some.inj hcall)).1
    exact iff_of_true (connect_oneListener h sockfd addr) rfl
  | close sockfd =>
    obtain rfl := (Prod.mk.inj (Option.some.inj hcall)).1
    exact iff_of_true (close_oneListener h sockfd) rfl
  | send sockfd size =>
    obtain rfl := (Prod.mk.inj (Option.some.inj hcall)).1
    exact iff_of_true (oneListener_table h (netstackSend_table s sockfd size)) rfl
  | sendto sockfd size =>
    obtain rfl := (Prod.mk.inj (Option.some.inj hcall)).1
    exact iff_of_true (oneListener_table h (netstackSendto_table s sockfd size)) rfl
  | recv sockfd size r => exact iff_of_true (oneListener_table h (netstackRecv_table hcall)) rfl
  | recvfrom sockfd size addr r port octet =>
    obtain ⟨⟨t', a', out⟩, hdone, hcall⟩ := Option.bind_eq_some_iff.mp hcall
    obtain rfl := (Prod.mk.inj (Option.some.inj hcall)).1
    exact iff_of_true (oneListener_table h (netstackRecvfrom_table hdone)) rfl

theorem oneListener_init : OneListener netBooted.stack := by
  change (entries (List.replicate maxSockets none)).Pairwise _
  rw [entries_replicate_none]
  exact .nil

theorem one_listener_per_port {calls : List NetCall} {w : NetWorld}
    (hrun : NetRun listenClear calls w) :
    OneListener w.stack ∧ ∀ c t a, netCall w.stack c = some (t, a) →
      (OneListener t ↔ listenClear w.stack c = true) := by
  have h : OneListener w.stack := by
    refine hrun.invariant (P := fun w : NetWorld => OneListener w.stack) oneListener_init ?_
    intro w c w' hw hclear hs
    obtain ⟨t, a, hcall, rfl⟩ := step_some hs
    exact (oneListener_call_iff hw hcall).mpr hclear
  exact ⟨h, fun c t a hcall => oneListener_call_iff h hcall⟩

theorem one_listener_per_port_web :
    OneListener (netRan listenClear webCalls).stack ∧
      ∀ c t a, netCall (netRan listenClear webCalls).stack c = some (t, a) →
        (OneListener t ↔ listenClear (netRan listenClear webCalls).stack c = true) :=
  one_listener_per_port (netRan_run (by decide +kernel))

def acceptedListens : List NetCall :=
  [.socket 2 1 6 7, .bind 3 webAddress, .listen 3 5, .accept 3 none 8 1 2, .listen 4 5]

theorem two_listeners : ¬ ∀ (calls : List NetCall) (w : NetWorld), NetRun (fun _ _ => true) calls w →
    OneListener w.stack := by
  intro hall
  have hone := hall acceptedListens (netRan (fun _ _ => true) acceptedListens)
    (netRan_run (by decide +kernel))
  exact absurd hone (by decide +kernel)

end Listeners

end ZoraVM.Kernel

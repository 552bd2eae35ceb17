import ZoraVM.Kernel.NetworkStack

namespace ZoraVM.Kernel

open Foundation

def liveFds (s : NetStack) : List Int := (entries s.sockets).map Socket.fd

section Effects

variable {s t u : NetStack} {c : NetCall} {a sockfd : Int} {i : Nat} {sock : Socket}

structure SameFds (s t : NetStack) : Prop where
  live : liveFds t = liveFds s
  slots : t.sockets.length = s.sockets.length
  next : t.nextFd = s.nextFd

structure Opens (s t : NetStack) : Prop where
  live : (liveFds t).Perm (s.nextFd :: liveFds s)
  slots : t.sockets.length = s.sockets.length
  next : t.nextFd = (s.nextFd + 1).bmod (2 ^ 32)

structure Closes (s t : NetStack) (fd : Int) : Prop where
  live : (liveFds s).Perm (fd :: liveFds t)
  slots : t.sockets.length = s.sockets.length
  next : t.nextFd = s.nextFd

def SameTable (s t : NetStack) : Prop := t.sockets = s.sockets ∧ t.nextFd = s.nextFd

theorem SameTable.fds (h : SameTable s t) : SameFds s t :=
  ⟨by rw [liveFds, liveFds, h.1], by rw [h.1], h.2⟩

theorem SameTable.withStats (s : NetStack) (stats : NetworkStats) :
    SameTable s { s with globalStats := stats } := ⟨rfl, rfl⟩

theorem SameFds.withStats (h : SameFds s t) (stats : NetworkStats) :
    SameFds s { t with globalStats := stats } := ⟨h.live, h.slots, h.next⟩

theorem Opens.sameFds (h : Opens s t) (h' : SameFds t u) : Opens s u :=
  ⟨h'.live ▸ h.live, h'.slots.trans h.slots, h'.next.trans h.next⟩

theorem findSocket_none (h : sockfd ∉ liveFds s) : findSocket s sockfd = none := by
  rw [findSocket_none_iff]
  intro sock hmem hfd
  exact h (List.mem_map.mpr ⟨sock, hmem, hfd⟩)

theorem put_sameFds (h : findSocket s sockfd = some (i, sock)) {sock' : Socket}
    (hfd : sock'.fd = sock.fd) : SameFds s (s.put i sock') := by
  obtain ⟨pre, post, hl, -, hset⟩ := findSocket_some h
  refine ⟨?_, List.length_set, rfl⟩
  rw [liveFds, liveFds, show (s.put i sock').sockets = pre ++ some sock' :: post from hset _, hl,
    entries_filled, entries_filled, List.map_append, List.map_append, List.map_cons, List.map_cons,
    hfd]

theorem netstackSocket_cases (s : NetStack) (family type protocol : Int) (seq : Rand) :
    ¬ (family = afInet ∧ none ∈ s.sockets) ∧
      netstackSocket s family type protocol seq = (s, -1) ∨
    (family = afInet ∧ none ∈ s.sockets) ∧ ∃ pre post, s.sockets = pre ++ none :: post ∧
      netstackSocket s family type protocol seq =
        ({ s with
          sockets := pre ++ some (newSocket s.nextFd family type protocol seq) :: post
          nextFd := (s.nextFd + 1).bmod (2 ^ 32) }, s.nextFd) := by
  unfold netstackSocket
  split
  · next hother => exact .inl ⟨fun h => hother h.1, rfl⟩
  · next hinet =>
    cases hfree : firstFree s.sockets with
    | none => exact .inl ⟨fun h => firstFree_none hfree h.2, rfl⟩
    | some i =>
      obtain ⟨pre, post, hl, hset⟩ := firstFree_some hfree
      refine .inr ⟨⟨not_not.mp hinet, ?_⟩, pre, post, hl, by rw [← hset]⟩
      rw [hl]
      exact List.mem_append_right pre List.mem_cons_self

theorem netstackSocket_effect (s : NetStack) (family type protocol : Int) (seq : Rand) :
    netstackSocket s family type protocol seq = (s, -1) ∨
      (netstackSocket s family type protocol seq).2 = s.nextFd ∧
        Opens s (netstackSocket s family type protocol seq).1 := by
  rcases netstackSocket_cases s family type protocol seq with
    ⟨-, hfails⟩ | ⟨-, pre, post, hl, hmade⟩
  · exact .inl hfails
  · refine .inr ⟨by rw [hmade], ?_, ?_, by rw [hmade]⟩
    · rw [hmade, liveFds, liveFds, hl, entries_filled, entries_empty, List.map_append,
        List.map_append, List.map_cons]
      exact List.perm_middle
    · rw [hmade, hl, List.length_append, List.length_append, List.length_cons, List.length_cons]

theorem netstackAccept_effect (hpos : 0 ≤ s.nextFd) (addr : Option SocketAddress)
    (seq port octet : Rand) :
    (netstackAccept s sockfd addr seq port octet).1 = s ∧
        (netstackAccept s sockfd addr seq port octet).2.1 = -1 ∨
      (netstackAccept s sockfd addr seq port octet).2.1 = s.nextFd ∧
        Opens s (netstackAccept s sockfd addr seq port octet).1 := by
  unfold netstackAccept
  cases hfound : findSocket s sockfd with
  | none => exact .inl ⟨rfl, rfl⟩
  | some found =>
    obtain ⟨i, sock⟩ := found
    dsimp only
    split
    · exact .inl ⟨rfl, rfl⟩
    · rcases netstackSocket_effect s sock.family sock.type sock.protocol seq with
        hfails | ⟨hfd, hopens⟩
      · rw [hfails]
        exact .inl ⟨rfl, rfl⟩
      · rw [hfd, if_neg (Int.not_lt.mpr hpos)]
        right
        split
        · exact ⟨rfl, hopens⟩
        · next hnew =>
          refine ⟨rfl, hopens.sameFds (SameFds.withStats (put_sameFds hnew ?_) _)⟩
          rfl

theorem netstackClose_effect (s : NetStack) (sockfd : Int) :
    netstackClose s sockfd = (s, -1) ∨
      (netstackClose s sockfd).2 = 0 ∧ Closes s (netstackClose s sockfd).1 sockfd := by
  unfold netstackClose
  cases hfound : findSocket s sockfd with
  | none => exact .inl rfl
  | some found =>
    obtain ⟨i, sock⟩ := found
    obtain ⟨pre, post, hl, hfd, hset⟩ := findSocket_some hfound
    refine .inr ⟨rfl, ?_, List.length_set, rfl⟩
    dsimp only
    rw [liveFds, liveFds, hset, hl, entries_filled, entries_empty, List.map_append, List.map_append,
      List.map_cons, hfd]
    exact List.perm_middle

theorem netstackBind_effect (s : NetStack) (sockfd : Int) (addr : SocketAddress) :
    netstackBind s sockfd addr = (s, -1) ∨
      (netstackBind s sockfd addr).2 = 0 ∧ SameFds s (netstackBind s sockfd addr).1 := by
  unfold netstackBind
  cases hfound : findSocket s sockfd with
  | none => exact .inl rfl
  | some found =>
    dsimp only
    split
    · exact .inl rfl
    · exact .inr ⟨rfl, put_sameFds hfound rfl⟩

theorem netstackListen_effect (s : NetStack) (sockfd backlog : Int) :
    netstackListen s sockfd backlog = (s, -1) ∨
      (netstackListen s sockfd backlog).2 = 0 ∧ SameFds s (netstackListen s sockfd backlog).1 := by
  unfold netstackListen
  cases hfound : findSocket s sockfd with
  | none => exact .inl rfl
  | some found =>
    dsimp only
    split
    · exact .inl rfl
    · exact .inr ⟨rfl, put_sameFds hfound rfl⟩

theorem netstackConnect_effect (s : NetStack) (sockfd : Int) (addr : SocketAddress) :
    netstackConnect s sockfd addr = (s, -1) ∨
      (netstackConnect s sockfd addr).2 = 0 ∧ SameFds s (netstackConnect s sockfd addr).1 := by
  unfold netstackConnect
  cases hfound : findSocket s sockfd with
  | none => exact .inl rfl
  | some found =>
    dsimp only
    split
    · refine .inr ⟨rfl, SameFds.withStats (put_sameFds hfound ?_) _⟩
      rfl
    · exact .inr ⟨rfl, put_sameFds hfound rfl⟩

theorem netstackSend_table (s : NetStack) (sockfd : Int) (size : BitVec 32) :
    SameTable s (netstackSend s sockfd size).1 := by
  unfold netstackSend
  split
  · exact ⟨rfl, rfl⟩
  · split <;> exact ⟨rfl, rfl⟩

theorem netstackSendto_table (s : NetStack) (sockfd : Int) (size : BitVec 32) :
    SameTable s (netstackSendto s sockfd size).1 := by
  unfold netstackSendto
  split <;> exact ⟨rfl, rfl⟩

theorem netstackRecv_table {size : BitVec 32} {r : Rand}
    (h : netstackRecv s sockfd size r = some (t, a)) : SameTable s t := by
  unfold netstackRecv at h
  split at h
  · obtain ⟨rfl, rfl⟩ := Prod.mk.inj (Option.some.inj h)
    exact ⟨rfl, rfl⟩
  · obtain ⟨bytes, -, h⟩ := Option.bind_eq_some_iff.mp h
    obtain ⟨rfl, rfl⟩ := Prod.mk.inj (Option.some.inj h)
    exact ⟨rfl, rfl⟩

theorem netstackRecvfrom_table {size : BitVec 32} {addr out : Option SocketAddress}
    {r port octet : Rand}
    (h : netstackRecvfrom s sockfd size addr r port octet = some (t, a, out)) : SameTable s t := by
  unfold netstackRecvfrom at h
  split at h
  · obtain ⟨rfl, -⟩ := Prod.mk.inj (Option.some.inj h)
    exact ⟨rfl, rfl⟩
  · obtain ⟨bytes, -, h⟩ := Option.bind_eq_some_iff.mp h
    obtain ⟨given, -, h⟩ := Option.bind_eq_some_iff.mp h
    obtain ⟨rfl, -⟩ := Prod.mk.inj (Option.some.inj h)
    exact ⟨rfl, rfl⟩

end Effects

section Log

def NetCall.opens : NetCall → Bool
  | .socket .. | .accept .. => true
  | _ => false

def NetEvent.makes (e : NetEvent) : Bool := e.call.opens && e.answer ≠ -1

def created (log : List NetEvent) : Nat := log.countP NetEvent.makes

def NetEvent.closed (e : NetEvent) : Option Int :=
  match e.call with
  | .close sockfd => if e.answer = 0 then some sockfd else none
  | _ => none

def closedFds (log : List NetEvent) : List Int := log.filterMap NetEvent.closed

variable {s t : NetStack} {c : NetCall} {a : Int}

inductive CallEffect (s : NetStack) (c : NetCall) (t : NetStack) (a : Int) : Prop
  | same (fds : SameFds s t) (fails : a = -1 → SameTable s t) (opened : c.opens = true → a = -1)
      (kept : (NetEvent.mk s c a).closed = none)
  | opens (opens : Opens s t) (opened : c.opens = true) (answer : a = s.nextFd)
      (kept : (NetEvent.mk s c a).closed = none)
  | closes (fd : Int) (closes : Closes s t fd) (opened : c.opens = false) (answer : a = 0)
      (closed : (NetEvent.mk s c a).closed = some fd)

theorem CallEffect.fails (hkept : (NetEvent.mk s c (-1)).closed = none) : CallEffect s c s (-1) :=
  .same (SameTable.fds ⟨rfl, rfl⟩) (fun _ => ⟨rfl, rfl⟩) (fun _ => rfl) hkept

theorem CallEffect.table (h : SameTable s t) (hopens : c.opens = false)
    (hkept : (NetEvent.mk s c a).closed = none) : CallEffect s c t a := by
  refine .same h.fds (fun _ => h) (fun hopened => ?_) hkept
  rw [hopens] at hopened
  cases hopened

theorem CallEffect.succeeds (h : SameFds s t) (hopens : c.opens = false) (ha : a = 0)
    (hkept : (NetEvent.mk s c a).closed = none) : CallEffect s c t a := by
  refine .same h (fun hminus => ?_) (fun hopened => ?_) hkept
  · omega
  · rw [hopens] at hopened
    cases hopened

theorem CallEffect.of_zero {u : NetStack × Int} (hdone : u = (t, a))
    (hu : u = (s, -1) ∨ u.2 = 0 ∧ SameFds s u.1) (hopens : c.opens = false)
    (hkept : (NetEvent.mk s c a).closed = none) : CallEffect s c t a := by
  subst hdone
  rcases hu with hfails | ⟨hzero, hfds⟩
  · obtain ⟨rfl, rfl⟩ := Prod.mk.inj hfails
    exact .fails hkept
  · exact .succeeds hfds hopens hzero hkept

theorem netCall_effect (hpos : 0 ≤ s.nextFd) (h : netCall s c = some (t, a)) :
    CallEffect s c t a := by
  cases c with
  | socket family type protocol seq =>
    have hdone := Option.some.inj h
    rcases netstackSocket_effect s family type protocol seq with hfails | ⟨hfd, hopens⟩
    · obtain ⟨rfl, rfl⟩ := Prod.mk.inj (hfails.symm.trans hdone)
      exact .fails rfl
    · rw [hdone] at hfd hopens
      exact .opens hopens rfl hfd rfl
  | bind sockfd addr =>
    exact .of_zero (Option.some.inj h) (netstackBind_effect s sockfd addr) rfl rfl
  | listen sockfd backlog =>
    exact .of_zero (Option.some.inj h) (netstackListen_effect s sockfd backlog) rfl rfl
  | accept sockfd addr seq port octet =>
    obtain ⟨rfl, rfl⟩ := Prod.mk.inj (Option.some.inj h)
    rcases netstackAccept_effect hpos addr seq port octet with ⟨hsame, hfails⟩ | ⟨hfd, hopens⟩
    · rw [hsame, hfails]
      exact .fails rfl
    · exact .opens hopens rfl hfd rfl
  | connect sockfd addr =>
    exact .of_zero (Option.some.inj h) (netstackConnect_effect s sockfd addr) rfl rfl
  | send sockfd size =>
    obtain ⟨rfl, rfl⟩ := Prod.mk.inj (Option.some.inj h)
    exact .table (netstackSend_table s sockfd size) rfl rfl
  | recv sockfd size r => exact .table (netstackRecv_table h) rfl rfl
  | sendto sockfd size =>
    obtain ⟨rfl, rfl⟩ := Prod.mk.inj (Option.some.inj h)
    exact .table (netstackSendto_table s sockfd size) rfl rfl
  | recvfrom sockfd size addr r port octet =>
    obtain ⟨⟨t', a', out⟩, hdone, h⟩ := Option.bind_eq_some_iff.mp h
    obtain ⟨rfl, rfl⟩ := Prod.mk.inj (Option.some.inj h)
    exact .table (netstackRecvfrom_table hdone) rfl rfl
  | close sockfd =>
    have hdone := Option.some.inj h
    rcases netstackClose_effect s sockfd with hfails | ⟨hzero, hcloses⟩
    · obtain ⟨rfl, rfl⟩ := Prod.mk.inj (hfails.symm.trans hdone)
      exact .fails rfl
    · rw [hdone] at hzero hcloses
      exact .closes sockfd hcloses rfl hzero (if_pos hzero)

theorem netCall_dead {sockfd : Int} (hfd : c.sockfd = some sockfd)
    (hdead : findSocket s sockfd = none) : netCall s c = some (s, -1) := by
  cases c with
  | socket family type protocol seq => cases hfd
  | bind fd addr =>
    obtain rfl := Option.some.inj hfd
    simp [netCall, netstackBind, hdead]
  | listen fd backlog =>
    obtain rfl := Option.some.inj hfd
    simp [netCall, netstackListen, hdead]
  | accept fd addr seq port octet =>
    obtain rfl := Option.some.inj hfd
    simp [netCall, netstackAccept, hdead]
  | connect fd addr =>
    obtain rfl := Option.some.inj hfd
    simp [netCall, netstackConnect, hdead]
  | send fd size =>
    obtain rfl := Option.some.inj hfd
    simp [netCall, netstackSend, hdead]
  | recv fd size r =>
    obtain rfl := Option.some.inj hfd
    simp [netCall, netstackRecv, hdead]
  | sendto fd size =>
    obtain rfl := Option.some.inj hfd
    simp [netCall, netstackSendto, hdead]
  | recvfrom fd size addr r port octet =>
    obtain rfl := Option.some.inj hfd
    simp [netCall, netstackRecvfrom, hdead]
  | close fd =>
    obtain rfl := Option.some.inj hfd
    simp [netCall, netstackClose, hdead]

end Log

section Table

variable {w w' : NetWorld} {c : NetCall}

structure SocketTable (s : NetStack) : Prop where
  distinct : (liveFds s).Nodup
  range : ∀ fd ∈ liveFds s, 3 ≤ fd ∧ fd < s.nextFd
  bounded : (liveFds s).length ≤ maxSockets

structure FdsKept (w : NetWorld) : Prop where
  slots : w.stack.sockets.length = maxSockets
  next : w.stack.nextFd = 3 + created w.log
  distinct : (liveFds w.stack).Nodup
  range : ∀ fd ∈ liveFds w.stack, 3 ≤ fd ∧ fd < w.stack.nextFd
  closed : ∀ fd ∈ closedFds w.log, 3 ≤ fd ∧ fd < w.stack.nextFd ∧ fd ∉ liveFds w.stack

theorem FdsKept.table (h : FdsKept w) : SocketTable w.stack := by
  refine ⟨h.distinct, h.range, ?_⟩
  rw [liveFds, List.length_map, ← h.slots]
  exact length_entries_le

theorem fdsKept_init : FdsKept netBooted := by
  have hlive : liveFds netBooted.stack = [] := by
    change (entries (List.replicate maxSockets none)).map Socket.fd = []
    rw [entries_replicate_none]
    rfl
  refine ⟨List.length_replicate, rfl, ?_, ?_, ?_⟩
  · rw [hlive]
    exact List.nodup_nil
  · rw [hlive]
    exact fun fd hmem => absurd hmem List.not_mem_nil
  · exact fun fd hmem => absurd hmem List.not_mem_nil

theorem created_append (log : List NetEvent) (e : NetEvent) :
    created (log ++ [e]) = created log + (if e.makes then 1 else 0) := by
  rw [created, List.countP_append, List.countP_singleton, ← created]

theorem closedFds_append (log : List NetEvent) (e : NetEvent) :
    closedFds (log ++ [e]) = closedFds log ++ e.closed.toList := by
  rw [closedFds, List.filterMap_append, ← closedFds]
  cases h : e.closed with
  | none => simp [h]
  | some fd => simp [h]

theorem step_some (h : w.step c = some w') :
    ∃ t a, netCall w.stack c = some (t, a) ∧ w' = ⟨t, w.log ++ [⟨w.stack, c, a⟩]⟩ := by
  obtain ⟨⟨t, a⟩, hcall, rfl⟩ := Option.map_eq_some_iff.mp h
  exact ⟨t, a, hcall, rfl⟩

theorem created_mono (h : w.step c = some w') : created w.log ≤ created w'.log := by
  obtain ⟨t, a, -, rfl⟩ := step_some h
  rw [created_append]
  exact Nat.le_add_right _ _

theorem FdsKept.same (h : FdsKept w) {t : NetStack} {log : List NetEvent}
    (hfds : SameFds w.stack t) (hcreated : created log = created w.log)
    (hclosed : closedFds log = closedFds w.log) : FdsKept ⟨t, log⟩ := by
  refine ⟨hfds.slots.trans h.slots, ?_, ?_, ?_, ?_⟩
  · rw [hfds.next, h.next, hcreated]
  · rw [hfds.live]
    exact h.distinct
  · rw [hfds.live, hfds.next]
    exact h.range
  · rw [hclosed, hfds.live, hfds.next]
    exact h.closed

theorem FdsKept.opens (h : FdsKept w) {t : NetStack} {log : List NetEvent}
    (hopens : Opens w.stack t) (hcreated : created log = created w.log + 1)
    (hfew : created log < 2 ^ 31 - 3) (hclosed : closedFds log = closedFds w.log) :
    FdsKept ⟨t, log⟩ := by
  have hnow := h.next
  have hnext : t.nextFd = w.stack.nextFd + 1 := by
    rw [hopens.next]
    exact Int.bmod_eq_of_le (by omega) (by omega)
  have hfresh : w.stack.nextFd ∉ liveFds w.stack := by
    intro hmem
    have hlt := (h.range _ hmem).2
    omega
  refine ⟨hopens.slots.trans h.slots, ?_, ?_, ?_, ?_⟩
  · dsimp only
    omega
  · exact hopens.live.nodup_iff.mpr (List.nodup_cons.mpr ⟨hfresh, h.distinct⟩)
  · intro fd hmem
    dsimp only
    rcases List.mem_cons.mp (hopens.live.mem_iff.mp hmem) with rfl | hmem
    · omega
    · have hrange := h.range fd hmem
      omega
  · rw [hclosed]
    intro fd hmem
    obtain ⟨hlow, hlt, hdead⟩ := h.closed fd hmem
    refine ⟨hlow, by dsimp only; omega, fun hlive => ?_⟩
    rcases List.mem_cons.mp (hopens.live.mem_iff.mp hlive) with rfl | hlive
    · omega
    · exact hdead hlive

theorem FdsKept.closes (h : FdsKept w) {t : NetStack} {log : List NetEvent} {fd : Int}
    (hcloses : Closes w.stack t fd) (hcreated : created log = created w.log)
    (hclosed : closedFds log = closedFds w.log ++ [fd]) : FdsKept ⟨t, log⟩ := by
  obtain ⟨hgone, hdistinct⟩ := List.nodup_cons.mp (hcloses.live.nodup_iff.mp h.distinct)
  have hsub : ∀ fd ∈ liveFds t, fd ∈ liveFds w.stack := fun fd hmem =>
    hcloses.live.mem_iff.mpr (List.mem_cons_of_mem _ hmem)
  refine ⟨hcloses.slots.trans h.slots, ?_, hdistinct, ?_, ?_⟩
  · rw [hcloses.next, h.next, hcreated]
  · rw [hcloses.next]
    exact fun fd hmem => h.range fd (hsub fd hmem)
  · rw [hclosed, hcloses.next]
    intro gone hmem
    rcases List.mem_append.mp hmem with hmem | hmem
    · obtain ⟨hlow, hlt, hdead⟩ := h.closed gone hmem
      exact ⟨hlow, hlt, fun hlive => hdead (hsub gone hlive)⟩
    · obtain rfl := List.mem_singleton.mp hmem
      obtain ⟨hlow, hlt⟩ := h.range gone (hcloses.live.mem_iff.mpr List.mem_cons_self)
      exact ⟨hlow, hlt, hgone⟩

theorem FdsKept.nextFd_nonneg (h : FdsKept w) : 0 ≤ w.stack.nextFd := by
  rw [h.next]
  omega

theorem fdsKept_step (h : FdsKept w) (hs : w.step c = some w')
    (hfew : created w'.log < 2 ^ 31 - 3) : FdsKept w' := by
  obtain ⟨t, a, hcall, rfl⟩ := step_some hs
  have hpos := h.nextFd_nonneg
  cases netCall_effect hpos hcall with
  | same hfds _ hopened hkept =>
    refine h.same hfds ?_ ?_
    · have hnone : (NetEvent.mk w.stack c a).makes = false := by
        cases hc : c.opens with
        | false => simp [NetEvent.makes, hc]
        | true => simp [NetEvent.makes, hopened hc]
      rw [created_append, hnone]
      rfl
    · rw [closedFds_append, hkept]
      exact List.append_nil _
  | opens hopens hopened ha hkept =>
    refine h.opens hopens ?_ hfew ?_
    · have hne : a ≠ -1 := by omega
      have hmakes : (NetEvent.mk w.stack c a).makes = true := by simp [NetEvent.makes, hopened, hne]
      rw [created_append, hmakes]
      rfl
    · rw [closedFds_append, hkept]
      exact List.append_nil _
  | closes fd hcloses hopened ha hclosed =>
    refine h.closes hcloses ?_ ?_
    · have hnone : (NetEvent.mk w.stack c a).makes = false := by simp [NetEvent.makes, hopened]
      rw [created_append, hnone]
      rfl
    · rw [closedFds_append, hclosed]
      rfl

theorem run_fdsKept {calls : List NetCall} (hrun : NetRun (fun _ _ => true) calls w)
    (hfew : created w.log < 2 ^ 31 - 3) : FdsKept w := by
  refine hrun.invariant (P := fun w => created w.log < 2 ^ 31 - 3 → FdsKept w) (fun _ => fdsKept_init)
    (fun w c w' hw _ hs hfew => ?_) hfew
  have hmono := created_mono hs
  exact fdsKept_step (hw (by omega)) hs hfew

theorem socket_table_kept {calls : List NetCall} (hrun : NetRun (fun _ _ => true) calls w)
    (hfew : created w.log < 2 ^ 31 - 3) :
    SocketTable w.stack ∧
      (∀ c fd, c.sockfd = some fd → fd ∈ closedFds w.log → netCall w.stack c = some (w.stack, -1)) ∧
      ∀ c t a, netCall w.stack c = some (t, a) →
        (c.opens = true → a ∉ closedFds w.log) ∧ (a = -1 → SameTable w.stack t) := by
  have h := run_fdsKept hrun hfew
  have hpos := h.nextFd_nonneg
  refine ⟨h.table, ?_, ?_⟩
  · intro c fd hfd hclosed
    exact netCall_dead hfd (findSocket_none (h.closed fd hclosed).2.2)
  · intro c t a hcall
    cases netCall_effect hpos hcall with
    | same _ hfails hopened _ =>
      refine ⟨fun hopens hclosed => ?_, hfails⟩
      obtain ⟨hlow, -⟩ := h.closed a hclosed
      have hminus := hopened hopens
      omega
    | opens _ _ ha _ =>
      refine ⟨fun _ hclosed => ?_, fun hminus => ?_⟩
      · obtain ⟨-, hlt, -⟩ := h.closed a hclosed
        omega
      · omega
    | closes fd _ hopened ha _ =>
      refine ⟨fun hopens => ?_, fun hminus => ?_⟩
      · rw [hopened] at hopens
        cases hopens
      · omega

def webAddress : SocketAddress := ⟨2, htons 80, #v[10, 0, 2, 15], Vector.replicate 8 0⟩

def webCalls : List NetCall :=
  [.socket 2 1 6 7, .bind 3 webAddress, .listen 3 5, .accept 3 none 8 1 2, .close 4, .socket 2 2 17 9]

def webRun : NetWorld := netRan (fun _ _ => true) webCalls

theorem socket_table_kept_web :
    SocketTable webRun.stack ∧
      (∀ c fd, c.sockfd = some fd → fd ∈ closedFds webRun.log →
        netCall webRun.stack c = some (webRun.stack, -1)) ∧
      ∀ c t a, netCall webRun.stack c = some (t, a) →
        (c.opens = true → a ∉ closedFds webRun.log) ∧ (a = -1 → SameTable webRun.stack t) :=
  socket_table_kept (netRan_run (by decide +kernel)) (by decide +kernel)

end Table

end ZoraVM.Kernel

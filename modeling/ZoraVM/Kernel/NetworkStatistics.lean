import ZoraVM.Kernel.SocketTable

namespace ZoraVM.Kernel

open Foundation

def NetEvent.connects (e : NetEvent) : Bool :=
  match e.call with
  | .connect sockfd _ =>
    e.answer = 0 && (findSocket e.before sockfd).any fun found => found.2.type = sockStream
  | .accept .. => e.answer ≠ -1
  | _ => false

def NetEvent.sent (e : NetEvent) : Option Nat :=
  match e.call with
  | .send _ size | .sendto _ size => if e.answer ≠ -1 then some size.toNat else none
  | _ => none

-- The answer read as the uint32_t it was before its conversion to int.
def NetEvent.received (e : NetEvent) : Option Nat :=
  match e.call with
  | .recv .. | .recvfrom .. =>
    if e.answer ≠ -1 then some (BitVec.ofInt 32 e.answer).toNat else none
  | _ => none

structure Agrees (w : NetWorld) : Prop where
  connections : w.stack.globalStats.tcpConnections.toNat = w.log.countP NetEvent.connects
  packetsSent : w.stack.globalStats.packetsSent.toNat = (w.log.filterMap NetEvent.sent).length
  bytesSent : w.stack.globalStats.bytesSent.toNat = (w.log.filterMap NetEvent.sent).sum
  packetsReceived :
    w.stack.globalStats.packetsReceived.toNat = (w.log.filterMap NetEvent.received).length
  bytesReceived : w.stack.globalStats.bytesReceived.toNat = (w.log.filterMap NetEvent.received).sum

def room (counter : BitVec 64) (n : Nat) : Bool := counter.toNat + n < 2 ^ 64

def accepts (s : NetStack) (sockfd : Int) : Bool :=
  (findSocket s sockfd).any fun found =>
    found.2.state = .listen ∧ (found.2.family = afInet ∧ none ∈ s.sockets) ∧ 0 ≤ s.nextFd

def countsRight (s : NetStack) : NetCall → Bool
  | .accept sockfd .. => accepts s sockfd → room s.globalStats.tcpConnections 1
  | .connect sockfd _ =>
    (findSocket s sockfd).all fun found =>
      found.2.type = sockStream → room s.globalStats.tcpConnections 1
  | .send sockfd size =>
    (findSocket s sockfd).all fun found =>
      found.2.state = .established → found.2.type ≠ sockStream ∧ size ≠ BitVec.allOnes 32 ∧
        room s.globalStats.packetsSent 1 ∧ room s.globalStats.bytesSent size.toNat
  | .sendto sockfd size =>
    (findSocket s sockfd).all fun _ => size ≠ BitVec.allOnes 32 &&
      room s.globalStats.packetsSent 1 && room s.globalStats.bytesSent size.toNat
  | .recv sockfd size r | .recvfrom sockfd size _ r _ _ =>
    (findSocket s sockfd).all fun _ => room s.globalStats.packetsReceived 1 &&
      room s.globalStats.bytesReceived (r.toNat % size.toNat + 1)
  | _ => true

section Counters

variable {s t : NetStack} {c : NetCall} {a sockfd : Int} {e : NetEvent} {log : List NetEvent}
variable {old : NetworkStats} {size : BitVec 32}

structure Counted (old new : NetworkStats) (e : NetEvent) : Prop where
  connections : new.tcpConnections.toNat = old.tcpConnections.toNat + if e.connects then 1 else 0
  packetsSent : new.packetsSent.toNat = old.packetsSent.toNat + e.sent.toList.length
  bytesSent : new.bytesSent.toNat = old.bytesSent.toNat + e.sent.toList.sum
  packetsReceived :
    new.packetsReceived.toNat = old.packetsReceived.toNat + e.received.toList.length
  bytesReceived : new.bytesReceived.toNat = old.bytesReceived.toNat + e.received.toList.sum

theorem filterMap_append_one (f : NetEvent → Option Nat) (log : List NetEvent) (e : NetEvent) :
    (log ++ [e]).filterMap f = log.filterMap f ++ (f e).toList := by
  rw [List.filterMap_append]
  cases h : f e with
  | none => simp [h]
  | some n => simp [h]

theorem agrees_append_iff (h : Agrees ⟨s, log⟩) :
    Agrees ⟨t, log ++ [e]⟩ ↔ Counted s.globalStats t.globalStats e := by
  obtain ⟨hconnections, hpacketsSent, hbytesSent, hpacketsReceived, hbytesReceived⟩ := h
  dsimp only at hconnections hpacketsSent hbytesSent hpacketsReceived hbytesReceived
  constructor
  · rintro ⟨h₁, h₂, h₃, h₄, h₅⟩
    simp only [List.countP_append, List.countP_singleton, filterMap_append_one, List.length_append,
      List.sum_append] at h₁ h₂ h₃ h₄ h₅
    exact ⟨by omega, by omega, by omega, by omega, by omega⟩
  · rintro ⟨h₁, h₂, h₃, h₄, h₅⟩
    constructor <;>
      simp only [List.countP_append, List.countP_singleton, filterMap_append_one, List.length_append,
        List.sum_append] <;> omega

theorem add_toNat_iff (x y : BitVec 64) {n : Nat} (hy : y.toNat = n) :
    (x + y).toNat = x.toNat + n ↔ room x n = true := by
  have hlt := (x + y).isLt
  rw [BitVec.toNat_add, hy] at hlt ⊢
  rw [room, decide_eq_true_eq]
  constructor
  · intro h
    rw [h] at hlt
    exact hlt
  · exact Nat.mod_eq_of_lt

theorem add_one_ne (x : BitVec 64) : (x + 1).toNat ≠ x.toNat := by
  have hlt := x.isLt
  rw [BitVec.toNat_add, show (1 : BitVec 64).toNat = 1 from rfl]
  omega

theorem counted_refl (hconnects : e.connects = false) (hsent : e.sent = none)
    (hreceived : e.received = none) (old : NetworkStats) : Counted old old e := by
  constructor <;> simp [hconnects, hsent, hreceived]

theorem counted_connected_iff (hconnects : e.connects = true) (hsent : e.sent = none)
    (hreceived : e.received = none) :
    Counted old old.connected e ↔ room old.tcpConnections 1 = true := by
  rw [← add_toNat_iff (n := 1) old.tcpConnections 1 rfl]
  constructor
  · intro h
    simpa [hconnects, NetworkStats.connected] using h.connections
  · intro h
    refine ⟨?_, ?_, ?_, ?_, ?_⟩
    · rw [if_pos hconnects]
      exact h
    · rw [hsent]
      rfl
    · rw [hsent]
      rfl
    · rw [hreceived]
      rfl
    · rw [hreceived]
      rfl

theorem counted_sent_iff (hconnects : e.connects = false) (hsent : e.sent = some size.toNat)
    (hreceived : e.received = none) : Counted old (old.sent size) e ↔
      room old.packetsSent 1 = true ∧ room old.bytesSent size.toNat = true := by
  have hsize : (size.setWidth 64).toNat = size.toNat := BitVec.toNat_setWidth_of_le (by decide)
  rw [← add_toNat_iff (n := 1) old.packetsSent 1 rfl, ← add_toNat_iff old.bytesSent _ hsize]
  constructor
  · intro h
    exact ⟨by simpa [hsent, NetworkStats.sent] using h.packetsSent,
      by simpa [hsent, NetworkStats.sent] using h.bytesSent⟩
  · rintro ⟨hpackets, hbytes⟩
    refine ⟨?_, ?_, ?_, ?_, ?_⟩
    · rw [hconnects]
      rfl
    · rw [hsent]
      exact hpackets
    · rw [hsent]
      exact hbytes
    all_goals
      rw [hreceived]
      rfl

theorem not_counted_sent (hsent : e.sent = none) : ¬ Counted old (old.sent size) e := by
  intro h
  refine add_one_ne old.packetsSent ?_
  simpa [hsent, NetworkStats.sent] using h.packetsSent

theorem counted_send_iff (hconnects : e.connects = false)
    (hsent : e.sent = if size.toInt ≠ -1 then some size.toNat else none) (hreceived : e.received = none) :
    Counted old (old.sent size) e ↔ size ≠ BitVec.allOnes 32 ∧ room old.packetsSent 1 = true ∧
      room old.bytesSent size.toNat = true := by
  have hlast : size.toInt = -1 ↔ size = BitVec.allOnes 32 :=
    BitVec.toInt_inj (y := BitVec.allOnes 32)
  by_cases hsize : size.toInt = -1
  · rw [if_neg (not_not.mpr hsize)] at hsent
    exact iff_of_false (not_counted_sent hsent) fun h => h.1 (hlast.mp hsize)
  · rw [if_pos hsize] at hsent
    rw [counted_sent_iff hconnects hsent hreceived, and_iff_right (hlast.not.mp hsize)]

theorem not_counted_connected (hconnects : e.connects = false) {new : NetworkStats}
    (hnew : new.tcpConnections = old.tcpConnections) : ¬ Counted old new.connected e := by
  intro h
  refine add_one_ne old.tcpConnections ?_
  simpa [hconnects, NetworkStats.connected, hnew] using h.connections

theorem counted_received_iff {bytes : BitVec 32} (hconnects : e.connects = false)
    (hsent : e.sent = none) (hreceived : e.received = some bytes.toNat) :
    Counted old (old.received bytes) e ↔
      room old.packetsReceived 1 = true ∧ room old.bytesReceived bytes.toNat = true := by
  have hbytes : (bytes.setWidth 64).toNat = bytes.toNat := BitVec.toNat_setWidth_of_le (by decide)
  rw [← add_toNat_iff (n := 1) old.packetsReceived 1 rfl, ← add_toNat_iff old.bytesReceived _ hbytes]
  constructor
  · intro h
    exact ⟨by simpa [hreceived, NetworkStats.received] using h.packetsReceived,
      by simpa [hreceived, NetworkStats.received] using h.bytesReceived⟩
  · rintro ⟨hpackets, hbytes⟩
    refine ⟨?_, ?_, ?_, ?_, ?_⟩
    · rw [hconnects]
      rfl
    · rw [hsent]
      rfl
    · rw [hsent]
      rfl
    · rw [hreceived]
      exact hpackets
    · rw [hreceived]
      exact hbytes

theorem counted_datagram_iff {new : NetworkStats} :
    Counted old new.datagram e ↔ Counted old new e :=
  ⟨fun h => ⟨h.1, h.2, h.3, h.4, h.5⟩, fun h => ⟨h.1, h.2, h.3, h.4, h.5⟩⟩

theorem bytesReceived_toNat {bytes : BitVec 32} {r : Rand} (h : bytesReceived size r = some bytes) :
    bytes.toNat = r.toNat % size.toNat + 1 ∧ bytes.toInt ≠ -1 := by
  have hr := r.isLt
  rw [bytesReceived] at h
  split at h
  · cases h
  · next hzero =>
    have hpos : 0 < size.toNat := Nat.pos_of_ne_zero fun hnat => hzero (BitVec.eq_of_toNat_eq hnat)
    have hmod := Nat.mod_lt r.toNat hpos
    have hle := Nat.mod_le r.toNat size.toNat
    have hsize := size.isLt
    have hsum : (r.setWidth 32 % size + 1).toNat = r.toNat % size.toNat + 1 := by
      rw [BitVec.toNat_add, BitVec.toNat_umod, BitVec.toNat_setWidth_of_le (by decide),
        show (1 : BitVec 32).toNat = 1 from rfl]
      omega
    have hge : ¬ size < r.setWidth 32 % size + 1 := by
      rw [BitVec.lt_def, hsum]
      omega
    dsimp only at h
    rw [if_neg hge] at h
    obtain rfl := Option.some.inj h
    refine ⟨hsum, ?_⟩
    rw [BitVec.toInt_eq_toNat_bmod, hsum]
    have hlt : r.toNat % size.toNat + 1 ≤ 2 ^ 31 := by omega
    rw [Int.bmod_def]
    omega

theorem counted_recv_iff {bytes : BitVec 32} {r : Rand} (hbytes : bytesReceived size r = some bytes)
    (hconnects : e.connects = false) (hsent : e.sent = none)
    (hreceived : e.received =
      if bytes.toInt ≠ -1 then some (BitVec.ofInt 32 bytes.toInt).toNat else none) :
    Counted old (old.received bytes) e ↔ room old.packetsReceived 1 = true ∧
      room old.bytesReceived (r.toNat % size.toNat + 1) = true := by
  obtain ⟨hnat, hanswer⟩ := bytesReceived_toNat hbytes
  rw [if_pos hanswer, BitVec.ofInt_toInt] at hreceived
  rw [counted_received_iff hconnects hsent hreceived, hnat]

theorem socket_stats (s : NetStack) (family type protocol : Int) (seq : Rand) :
    (netstackSocket s family type protocol seq).1.globalStats = s.globalStats := by
  rcases netstackSocket_cases s family type protocol seq with
    ⟨-, hfails⟩ | ⟨-, pre, post, -, hmade⟩
  · rw [hfails]
  · rw [hmade]

theorem bind_stats (s : NetStack) (sockfd : Int) (addr : SocketAddress) :
    (netstackBind s sockfd addr).1.globalStats = s.globalStats := by
  unfold netstackBind
  split
  · rfl
  · dsimp only
    split <;> rfl

theorem listen_stats (s : NetStack) (sockfd backlog : Int) :
    (netstackListen s sockfd backlog).1.globalStats = s.globalStats := by
  unfold netstackListen
  split
  · rfl
  · dsimp only
    split <;> rfl

theorem close_stats (s : NetStack) (sockfd : Int) :
    (netstackClose s sockfd).1.globalStats = s.globalStats := by
  unfold netstackClose
  split <;> rfl

theorem accept_stats (s : NetStack) (sockfd : Int) (addr : Option SocketAddress)
    (seq port octet : Rand) :
    (accepts s sockfd = false ∧ (netstackAccept s sockfd addr seq port octet).2.1 = -1 ∧
        (netstackAccept s sockfd addr seq port octet).1.globalStats = s.globalStats) ∨
      accepts s sockfd = true ∧ (netstackAccept s sockfd addr seq port octet).2.1 ≠ -1 ∧
        (netstackAccept s sockfd addr seq port octet).1.globalStats = s.globalStats.connected := by
  unfold netstackAccept accepts
  cases hfound : findSocket s sockfd with
  | none => exact .inl ⟨rfl, rfl, rfl⟩
  | some found =>
    obtain ⟨i, sock⟩ := found
    rw [Option.any_some]
    dsimp only
    split
    · next hstate => exact .inl ⟨decide_eq_false fun h => hstate h.1, rfl, rfl⟩
    · next hstate =>
      have hstate : sock.state = .listen := not_not.mp hstate
      rcases netstackSocket_cases s sock.family sock.type sock.protocol seq with
        ⟨hno, hfails⟩ | ⟨hroom, pre, post, -, hmade⟩
      · rw [hfails]
        exact .inl ⟨decide_eq_false fun h => hno h.2.1, rfl, rfl⟩
      · rw [hmade]
        dsimp only
        split
        · next hneg => exact .inl ⟨decide_eq_false fun h => absurd h.2.2 (Int.not_le.mpr hneg), rfl, rfl⟩
        · next hpos =>
          have hpos := Int.not_lt.mp hpos
          refine .inr ⟨decide_eq_true ⟨hstate, hroom, hpos⟩, ?_⟩
          split
          · next hnone =>
            have hnew := findSocket_none_iff.mp hnone
              (newSocket s.nextFd sock.family sock.type sock.protocol seq)
            refine absurd rfl (hnew (mem_entries.mpr ?_))
            exact List.mem_append_right pre List.mem_cons_self
          · exact ⟨by dsimp only; omega, rfl⟩

theorem silent_counted (hconnects : e.connects = false) (hsent : e.sent = none)
    (hreceived : e.received = none) (hstats : t.globalStats = s.globalStats) :
    Counted s.globalStats t.globalStats e := by
  rw [hstats]
  exact counted_refl hconnects hsent hreceived _

theorem accept_counted_iff (addr : Option SocketAddress) (seq port octet : Rand)
    (hcall : netCall s (.accept sockfd addr seq port octet) = some (t, a)) :
    Counted s.globalStats t.globalStats ⟨s, .accept sockfd addr seq port octet, a⟩ ↔
      countsRight s (.accept sockfd addr seq port octet) = true := by
  have hdone := Prod.mk.inj (Option.some.inj hcall)
  rcases accept_stats s sockfd addr seq port octet with ⟨hno, hfails, hstats⟩ | ⟨hyes, hmade, hstats⟩
  · rw [hdone.1] at hstats
    rw [hdone.2] at hfails
    rw [hstats, hfails]
    refine iff_of_true (counted_refl rfl rfl rfl _) (decide_eq_true fun h => ?_)
    rw [hno] at h
    cases h
  · rw [hdone.1] at hstats
    rw [hdone.2] at hmade
    have hconnects : (NetEvent.mk s (.accept sockfd addr seq port octet) a).connects = true :=
      decide_eq_true hmade
    rw [hstats, counted_connected_iff hconnects rfl rfl]
    simp [countsRight, hyes]

theorem connect_counted_iff (addr : SocketAddress)
    (hcall : netCall s (.connect sockfd addr) = some (t, a)) :
    Counted s.globalStats t.globalStats ⟨s, .connect sockfd addr, a⟩ ↔
      countsRight s (.connect sockfd addr) = true := by
  have hdone : netstackConnect s sockfd addr = (t, a) := Option.some.inj hcall
  simp only [netstackConnect] at hdone
  simp only [countsRight]
  cases hfound : findSocket s sockfd with
  | none =>
    simp only [hfound] at hdone
    obtain ⟨rfl, rfl⟩ := Prod.mk.inj hdone
    exact iff_of_true (counted_refl rfl rfl rfl _) rfl
  | some found =>
    obtain ⟨i, sock⟩ := found
    simp only [hfound] at hdone
    split at hdone
    · next htcp =>
      obtain ⟨rfl, rfl⟩ := Prod.mk.inj hdone
      have hconnects : (NetEvent.mk s (.connect sockfd addr) 0).connects = true := by
        simp [NetEvent.connects, hfound, htcp]
      rw [counted_connected_iff hconnects rfl rfl]
      simp [htcp]
    · next hudp =>
      obtain ⟨rfl, rfl⟩ := Prod.mk.inj hdone
      have hconnects : (NetEvent.mk s (.connect sockfd addr) 0).connects = false := by
        simp [NetEvent.connects, hfound, hudp]
      exact iff_of_true (counted_refl hconnects rfl rfl _) (by simp [hudp])

theorem send_counted_iff
    (hcall : netCall s (.send sockfd size) = some (t, a)) :
    Counted s.globalStats t.globalStats ⟨s, .send sockfd size, a⟩ ↔
      countsRight s (.send sockfd size) = true := by
  have hdone : netstackSend s sockfd size = (t, a) := Option.some.inj hcall
  simp only [netstackSend] at hdone
  simp only [countsRight]
  cases hfound : findSocket s sockfd with
  | none =>
    simp only [hfound] at hdone
    obtain ⟨rfl, rfl⟩ := Prod.mk.inj hdone
    exact iff_of_true (counted_refl rfl rfl rfl _) rfl
  | some found =>
    obtain ⟨i, sock⟩ := found
    simp only [hfound] at hdone
    split at hdone
    · next hstate =>
      obtain ⟨rfl, rfl⟩ := Prod.mk.inj hdone
      exact iff_of_true (counted_refl rfl rfl rfl _) (by simp [hstate])
    · next hstate =>
      obtain ⟨rfl, rfl⟩ := Prod.mk.inj hdone
      have hstate : sock.state = .established := not_not.mp hstate
      simp only [Option.all_some, hstate, decide_eq_true_eq, forall_const]
      split
      · next htcp => exact iff_of_false (not_counted_connected rfl rfl) fun h => h.1 htcp
      · next hother =>
        rw [and_iff_right hother]
        split
        · rw [counted_datagram_iff, counted_send_iff rfl rfl rfl]
        · rw [counted_send_iff rfl rfl rfl]

theorem sendto_counted_iff
    (hcall : netCall s (.sendto sockfd size) = some (t, a)) :
    Counted s.globalStats t.globalStats ⟨s, .sendto sockfd size, a⟩ ↔
      countsRight s (.sendto sockfd size) = true := by
  have hdone : netstackSendto s sockfd size = (t, a) := Option.some.inj hcall
  simp only [netstackSendto] at hdone
  simp only [countsRight]
  cases hfound : findSocket s sockfd with
  | none =>
    simp only [hfound] at hdone
    obtain ⟨rfl, rfl⟩ := Prod.mk.inj hdone
    exact iff_of_true (counted_refl rfl rfl rfl _) rfl
  | some found =>
    simp only [hfound] at hdone
    obtain ⟨rfl, rfl⟩ := Prod.mk.inj hdone
    rw [counted_datagram_iff, counted_send_iff rfl rfl rfl]
    simp [and_assoc]

theorem recv_counted_iff (r : Rand)
    (hcall : netCall s (.recv sockfd size r) = some (t, a)) :
    Counted s.globalStats t.globalStats ⟨s, .recv sockfd size r, a⟩ ↔
      countsRight s (.recv sockfd size r) = true := by
  simp only [netCall, netstackRecv] at hcall
  simp only [countsRight]
  cases hfound : findSocket s sockfd with
  | none =>
    simp only [hfound] at hcall
    obtain ⟨rfl, rfl⟩ := Prod.mk.inj (Option.some.inj hcall)
    exact iff_of_true (counted_refl rfl rfl rfl _) rfl
  | some found =>
    simp only [hfound] at hcall
    obtain ⟨bytes, hbytes, hcall⟩ := Option.bind_eq_some_iff.mp hcall
    obtain ⟨rfl, rfl⟩ := Prod.mk.inj (Option.some.inj hcall)
    rw [counted_recv_iff hbytes rfl rfl rfl]
    simp

theorem recvfrom_counted_iff (addr : Option SocketAddress) (r port octet : Rand)
    (hcall : netCall s (.recvfrom sockfd size addr r port octet) = some (t, a)) :
    Counted s.globalStats t.globalStats ⟨s, .recvfrom sockfd size addr r port octet, a⟩ ↔
      countsRight s (.recvfrom sockfd size addr r port octet) = true := by
  obtain ⟨⟨t', a', out⟩, hdone, hcall⟩ := Option.bind_eq_some_iff.mp hcall
  obtain ⟨rfl, rfl⟩ := Prod.mk.inj (Option.some.inj hcall)
  simp only [netstackRecvfrom] at hdone
  simp only [countsRight]
  cases hfound : findSocket s sockfd with
  | none =>
    simp only [hfound] at hdone
    obtain ⟨rfl, hpair⟩ := Prod.mk.inj (Option.some.inj hdone)
    obtain ⟨rfl, -⟩ := Prod.mk.inj hpair
    exact iff_of_true (counted_refl rfl rfl rfl _) rfl
  | some found =>
    simp only [hfound] at hdone
    obtain ⟨bytes, hbytes, hdone⟩ := Option.bind_eq_some_iff.mp hdone
    obtain ⟨given, -, hdone⟩ := Option.bind_eq_some_iff.mp hdone
    obtain ⟨rfl, hpair⟩ := Prod.mk.inj (Option.some.inj hdone)
    obtain ⟨rfl, -⟩ := Prod.mk.inj hpair
    rw [counted_datagram_iff, counted_recv_iff hbytes rfl rfl rfl]
    simp

theorem call_counted_iff (hcall : netCall s c = some (t, a)) :
    Counted s.globalStats t.globalStats ⟨s, c, a⟩ ↔ countsRight s c = true := by
  cases c with
  | socket family type protocol seq =>
    have hdone : netstackSocket s family type protocol seq = (t, a) := Option.some.inj hcall
    have hstats := socket_stats s family type protocol seq
    rw [hdone] at hstats
    exact iff_of_true (silent_counted rfl rfl rfl hstats) rfl
  | bind sockfd addr =>
    have hdone : netstackBind s sockfd addr = (t, a) := Option.some.inj hcall
    have hstats := bind_stats s sockfd addr
    rw [hdone] at hstats
    exact iff_of_true (silent_counted rfl rfl rfl hstats) rfl
  | listen sockfd backlog =>
    have hdone : netstackListen s sockfd backlog = (t, a) := Option.some.inj hcall
    have hstats := listen_stats s sockfd backlog
    rw [hdone] at hstats
    exact iff_of_true (silent_counted rfl rfl rfl hstats) rfl
  | close sockfd =>
    have hdone : netstackClose s sockfd = (t, a) := Option.some.inj hcall
    have hstats := close_stats s sockfd
    rw [hdone] at hstats
    exact iff_of_true (silent_counted rfl rfl rfl hstats) rfl
  | accept sockfd addr seq port octet => exact accept_counted_iff addr seq port octet hcall
  | connect sockfd addr => exact connect_counted_iff addr hcall
  | send sockfd size => exact send_counted_iff hcall
  | sendto sockfd size => exact sendto_counted_iff hcall
  | recv sockfd size r => exact recv_counted_iff r hcall
  | recvfrom sockfd size addr r port octet => exact recvfrom_counted_iff addr r port octet hcall

theorem agrees_call_iff (h : Agrees ⟨s, log⟩) (hcall : netCall s c = some (t, a)) :
    Agrees ⟨t, log ++ [⟨s, c, a⟩]⟩ ↔ countsRight s c = true := by
  rw [agrees_append_iff h, call_counted_iff hcall]

theorem network_statistics_agree {calls : List NetCall} {w : NetWorld}
    (hrun : NetRun countsRight calls w) :
    Agrees w ∧ ∀ c w', w.step c = some w' → (Agrees w' ↔ countsRight w.stack c = true) := by
  have h : Agrees w := by
    refine hrun.invariant (P := Agrees) ⟨rfl, rfl, rfl, rfl, rfl⟩ ?_
    intro w c w' hw hright hs
    obtain ⟨t, a, hcall, rfl⟩ := step_some hs
    exact (agrees_call_iff hw hcall).mpr hright
  refine ⟨h, fun c w' hs => ?_⟩
  obtain ⟨t, a, hcall, rfl⟩ := step_some hs
  exact agrees_call_iff h hcall

def datagramCalls : List NetCall :=
  webCalls ++ [.sendto 5 100, .recvfrom 5 64 (some webAddress) 7 1 2, .connect 3 webAddress, .recv 3 9 8]

theorem network_statistics_agree_datagrams :
    Agrees (netRan countsRight datagramCalls) ∧
      ∀ c w', (netRan countsRight datagramCalls).step c = some w' →
        (Agrees w' ↔ countsRight (netRan countsRight datagramCalls).stack c = true) :=
  network_statistics_agree (netRan_run (by decide +kernel))

def oneSend : List NetCall := [.socket 2 1 6 7, .connect 3 webAddress, .send 3 100]

theorem sends_counted_as_connections : ¬ ∀ (calls : List NetCall) (w : NetWorld),
    NetRun (fun _ _ => true) calls w → Agrees w := by
  intro hall
  have hagrees := hall oneSend (netRan (fun _ _ => true) oneSend) (netRan_run (by decide +kernel))
  exact absurd hagrees.connections (by decide +kernel)

end Counters

end ZoraVM.Kernel

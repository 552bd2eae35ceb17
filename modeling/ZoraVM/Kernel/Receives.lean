import ZoraVM.Kernel.NetworkStatistics

namespace ZoraVM.Kernel

open Foundation

variable {s : NetStack} {sockfd : Int} {i : Nat} {sock : Socket} {size : BitVec 32} {r : Rand}
  {addr : Option SocketAddress}

def ReceivedCount (size : BitVec 32) (answer : Int) : Prop :=
  answer = -1 ∨ (0 ≤ answer ∧ answer ≤ size.toNat)

def ReceivesTotal {α : Type} (size : BitVec 32) (answer : α → Int) (called : Option α) : Prop :=
  ∃ done, called = some done ∧ ReceivedCount size (answer done)

def countOverflows (size : BitVec 32) (r : Rand) : Bool :=
  decide (2 ^ 31 ≤ size.toNat ∧ r.toNat = 2 ^ 31 - 1)

theorem count_overflows_iff (hpos : 0 < size.toNat) :
    r.toNat % size.toNat + 1 = 2 ^ 31 ↔ countOverflows size r = true := by
  have hr := r.isLt
  have hle := Nat.mod_le r.toNat size.toNat
  have hlt := Nat.mod_lt r.toNat hpos
  rw [countOverflows, decide_eq_true_iff]
  constructor
  · intro h
    exact ⟨by omega, by omega⟩
  · rintro ⟨hsize, hmax⟩
    rw [Nat.mod_eq_of_lt (by omega), hmax]
    decide

theorem received_count_iff {bytes : BitVec 32} (h : bytesReceived size r = some bytes) :
    ReceivedCount size bytes.toInt ↔ countOverflows size r = false := by
  obtain ⟨hnat, hanswer⟩ := bytesReceived_toNat h
  have hpos : 0 < size.toNat := by
    refine Nat.pos_of_ne_zero fun hzero => ?_
    have hsize : size = 0 := BitVec.eq_of_toNat_eq hzero
    simp [bytesReceived, hsize] at h
  have hr := r.isLt
  have hle := Nat.mod_le r.toNat size.toNat
  have hlt := Nat.mod_lt r.toNat hpos
  rw [← Bool.not_eq_true, ← count_overflows_iff hpos, ← hnat, ReceivedCount,
    or_iff_right hanswer, BitVec.toInt_eq_toNat_cond]
  constructor
  · rintro ⟨hge, -⟩ hmax
    rw [if_neg (by omega)] at hge
    omega
  · intro hne
    rw [if_pos (by omega)]
    exact ⟨Int.natCast_nonneg _, by omega⟩

theorem bytesReceived_isSome_iff : (∃ bytes, bytesReceived size r = some bytes) ↔ size ≠ 0 := by
  by_cases hzero : size = 0
  · simp [bytesReceived, hzero]
  · simp [bytesReceived]

theorem recv_total_iff (hlive : findSocket s sockfd = some (i, sock)) :
    ReceivesTotal size Prod.snd (netstackRecv s sockfd size r) ↔
      size ≠ 0 ∧ countOverflows size r = false := by
  rw [netstackRecv, hlive]
  constructor
  · rintro ⟨done, hdone, hcount⟩
    obtain ⟨bytes, hbytes, hdone⟩ := Option.bind_eq_some_iff.mp hdone
    obtain rfl := Option.some.inj hdone
    exact ⟨bytesReceived_isSome_iff.mp ⟨bytes, hbytes⟩, (received_count_iff hbytes).mp hcount⟩
  · rintro ⟨hsize, hfits⟩
    obtain ⟨bytes, hbytes⟩ := bytesReceived_isSome_iff.mpr hsize
    exact ⟨_, Option.bind_eq_some_iff.mpr ⟨bytes, hbytes, rfl⟩,
      (received_count_iff hbytes).mpr hfits⟩

theorem recvfrom_total_iff (port octet : Rand) (hlive : findSocket s sockfd = some (i, sock)) :
    ReceivesTotal size (fun done => done.2.1) (netstackRecvfrom s sockfd size addr r port octet) ↔
      size ≠ 0 ∧ addr ≠ none ∧ countOverflows size r = false := by
  rw [netstackRecvfrom, hlive]
  constructor
  · rintro ⟨done, hdone, hcount⟩
    obtain ⟨bytes, hbytes, hdone⟩ := Option.bind_eq_some_iff.mp hdone
    obtain ⟨given, hgiven, hdone⟩ := Option.bind_eq_some_iff.mp hdone
    obtain rfl := Option.some.inj hdone
    refine ⟨bytesReceived_isSome_iff.mp ⟨bytes, hbytes⟩, ?_, (received_count_iff hbytes).mp hcount⟩
    rw [hgiven]
    exact Option.some_ne_none given
  · rintro ⟨hsize, haddr, hfits⟩
    obtain ⟨given, rfl⟩ := Option.ne_none_iff_exists'.mp haddr
    obtain ⟨bytes, hbytes⟩ := bytesReceived_isSome_iff.mpr hsize
    exact ⟨_, Option.bind_eq_some_iff.mpr ⟨bytes, hbytes, rfl⟩,
      (received_count_iff hbytes).mpr hfits⟩

section Syscalls

-- What the callers in the syscall table pass on; `pointee` is the address structure at a pointer.
variable (pointee : BitVec 32 → SocketAddress)

def addressAt (p : BitVec 32) : Option SocketAddress := if p = 0 then none else some (pointee p)

def sysRecv (s : NetStack) (sockfd buf len : BitVec 32) (r : Rand) : Option (NetStack × Int) :=
  if buf = 0 then some (s, -1) else netstackRecv s sockfd.toInt len r

def sysRecvfrom (s : NetStack) (sockfd buf len srcAddr : BitVec 32) (r port octet : Rand) :
    Option (NetStack × Int × Option SocketAddress) :=
  if buf = 0 then some (s, -1, addressAt pointee srcAddr)
  else netstackRecvfrom s sockfd.toInt len (addressAt pointee srcAddr) r port octet

variable {pointee} {fd buf len srcAddr : BitVec 32}

theorem sysRecv_total_iff (hlive : findSocket s fd.toInt = some (i, sock)) :
    ReceivesTotal len Prod.snd (sysRecv s fd buf len r) ↔
      buf = 0 ∨ (len ≠ 0 ∧ countOverflows len r = false) := by
  by_cases hbuf : buf = 0
  · rw [sysRecv, if_pos hbuf]
    exact iff_of_true ⟨_, rfl, .inl rfl⟩ (.inl hbuf)
  · rw [sysRecv, if_neg hbuf, recv_total_iff hlive, or_iff_right hbuf]

theorem sysRecvfrom_total_iff (port octet : Rand) (hlive : findSocket s fd.toInt = some (i, sock)) :
    ReceivesTotal len (fun done => done.2.1)
        (sysRecvfrom pointee s fd buf len srcAddr r port octet) ↔
      buf = 0 ∨ (len ≠ 0 ∧ srcAddr ≠ 0 ∧ countOverflows len r = false) := by
  have haddr : addressAt pointee srcAddr ≠ none ↔ srcAddr ≠ 0 := by
    by_cases hsrc : srcAddr = 0 <;> simp [addressAt, hsrc]
  by_cases hbuf : buf = 0
  · rw [sysRecvfrom, if_pos hbuf]
    exact iff_of_true ⟨_, rfl, .inl rfl⟩ (.inl hbuf)
  · rw [sysRecvfrom, if_neg hbuf, recvfrom_total_iff port octet hlive, or_iff_right hbuf, haddr]

end Syscalls

theorem receives_total_iff (s : NetStack) (sockfd : Int) (size : BitVec 32)
    (addr : Option SocketAddress) (r port octet : Rand)
    (hlive : (findSocket s sockfd).isSome = true) :
    (ReceivesTotal size Prod.snd (netstackRecv s sockfd size r) ↔
      size ≠ 0 ∧ countOverflows size r = false) ∧
    (ReceivesTotal size (fun done => done.2.1)
        (netstackRecvfrom s sockfd size addr r port octet) ↔
      size ≠ 0 ∧ addr ≠ none ∧ countOverflows size r = false) := by
  obtain ⟨⟨i, sock⟩, hfound⟩ := Option.isSome_iff_exists.mp hlive
  exact ⟨recv_total_iff hfound, recvfrom_total_iff port octet hfound⟩

def oneDatagramSocket : NetStack := (netstackSocket netstackInit afInet sockDgram 17 0).1

theorem receives_total_iff_datagram :
    (ReceivesTotal 100 Prod.snd (netstackRecv oneDatagramSocket 3 100 41) ↔
      (100 : BitVec 32) ≠ 0 ∧ countOverflows 100 41 = false) ∧
    (ReceivesTotal 100 (fun done => done.2.1)
        (netstackRecvfrom oneDatagramSocket 3 100 (some noAddress) 41 5 7) ↔
      (100 : BitVec 32) ≠ 0 ∧ some noAddress ≠ none ∧ countOverflows 100 41 = false) :=
  receives_total_iff oneDatagramSocket 3 100 (some noAddress) 41 5 7 (by decide +kernel)

theorem receives_not_total :
    (¬ ∀ (s : NetStack) (sockfd : Int) (size : BitVec 32) (r : Rand),
      (findSocket s sockfd).isSome = true →
        ReceivesTotal size Prod.snd (netstackRecv s sockfd size r)) ∧
    ¬ ∀ (s : NetStack) (sockfd : Int) (size : BitVec 32) (addr : Option SocketAddress)
      (r port octet : Rand), (findSocket s sockfd).isSome = true → size ≠ 0 →
        ReceivesTotal size (fun done => done.2.1)
          (netstackRecvfrom s sockfd size addr r port octet) := by
  have hlive : (findSocket oneDatagramSocket 3).isSome = true := by decide +kernel
  obtain ⟨⟨i, sock⟩, hfound⟩ := Option.isSome_iff_exists.mp hlive
  constructor
  · intro hall
    exact ((recv_total_iff hfound).mp (hall oneDatagramSocket 3 0 41 hlive)).1 rfl
  · intro hall
    have h := hall oneDatagramSocket 3 100 none 41 5 7 hlive (by decide)
    exact ((recvfrom_total_iff 5 7 hfound).mp h).2.1 rfl

end ZoraVM.Kernel

import ZoraVM.Unix.IpcIds

namespace ZoraVM.Unix

open Foundation

def IPCMessage.content (m : IPCMessage) : Bytes × Nat := (m.data.take m.size, m.size)

structure QueueUse where
  ipc : IpcState
  sent : List (Bytes × Nat)
  delivered : List (Bytes × Nat)
  deriving DecidableEq, Repr

inductive QueueCall where
  | send (msg : IPCMessage) (now : Int)
  | receive (msg : IPCMessage) (type now : Int)
  deriving DecidableEq, Repr

def QueueUse.call (id : Int) (u : QueueUse) : QueueCall → QueueUse
  | .send msg now =>
    let done := unixMsgsnd u.ipc id msg now
    ⟨done.1, if done.2.2 = 0 then u.sent ++ [msg.content] else u.sent, u.delivered⟩
  | .receive msg type now =>
    let done := unixMsgrcv u.ipc id msg type now
    ⟨done.1, u.sent, if done.2.2 = 0 then u.delivered ++ [done.2.1.content] else u.delivered⟩

def sampleContent : Bytes × Nat := (sampleMessage, sampleMessage.length)

def oldestIsSample (u : QueueUse) : QueueCall → Bool
  | .send _ _ => true
  | .receive _ _ _ => (u.sent[u.delivered.length]?).all fun content => content = sampleContent

def FifoSoFar (u : QueueUse) : Prop := u.delivered <+: u.sent

def FailsOnlyWhenAllDelivered (id : Int) (u : QueueUse) : Prop :=
  ∀ msg type now, (unixMsgrcv u.ipc id msg type now).2.2 ≠ 0 → u.delivered.length = u.sent.length

section Calls

variable {s : IpcState} {u : QueueUse} {queue : MessageQueue} {id type now : Int} {msg : IPCMessage}
variable {c : QueueCall}

theorem unixMsgsnd_full (h : holder MessageQueue.id s.messageQueues id = some queue)
    (hfull : queue.maxMessages ≤ queue.currentMessages) : unixMsgsnd s id msg now = (s, msg, -1) := by
  rw [unixMsgsnd, h]
  exact if_pos hfull

theorem unixMsgsnd_room (msg : IPCMessage) (now : Int)
    (h : holder MessageQueue.id s.messageQueues id = some queue)
    (hroom : queue.currentMessages < queue.maxMessages) :
    (unixMsgsnd s id msg now).2.2 = 0 ∧
      holder MessageQueue.id (unixMsgsnd s id msg now).1.messageQueues id =
        some { queue with currentMessages := queue.currentMessages + 1 } := by
  rw [unixMsgsnd, h]
  simp only [ge_iff_le, if_neg (Int.not_le.mpr hroom), true_and]
  rw [holder_adjust (by simp), h, Option.map_some]

theorem unixMsgrcv_empty (msg : IPCMessage) (type now : Int)
    (h : holder MessageQueue.id s.messageQueues id = some queue)
    (hempty : queue.currentMessages ≤ 0) : unixMsgrcv s id msg type now = (s, msg, -1) := by
  rw [unixMsgrcv, h]
  exact if_pos hempty

theorem content_sample (data : Bytes) (type now : Int) :
    (⟨type, splice data 0 (sampleMessage ++ [0]), sampleMessage.length, now⟩ :
      IPCMessage).content = sampleContent := by
  simp [IPCMessage.content, sampleContent, splice, List.append_assoc]

theorem unixMsgrcv_some (msg : IPCMessage) (type now : Int)
    (h : holder MessageQueue.id s.messageQueues id = some queue)
    (hsome : 0 < queue.currentMessages) :
    (unixMsgrcv s id msg type now).2.2 = 0 ∧
      (unixMsgrcv s id msg type now).2.1.content = sampleContent ∧
      holder MessageQueue.id (unixMsgrcv s id msg type now).1.messageQueues id =
        some { queue with currentMessages := queue.currentMessages - 1 } := by
  rw [unixMsgrcv, h]
  simp only [if_neg (Int.not_le.mpr hsome), content_sample, true_and]
  rw [holder_adjust (by simp), h, Option.map_some]

end Calls

section Fifo

variable {s made : IpcState} {name : Bytes} {u : QueueUse} {id flags now : Int} {c : QueueCall}

structure QueueKept (id : Int) (u : QueueUse) : Prop where
  fifo : FifoSoFar u
  counted : ∃ queue, holder MessageQueue.id u.ipc.messageQueues id = some queue ∧
    queue.currentMessages + u.delivered.length = u.sent.length

theorem queueKept_send (h : QueueKept id u) (msg : IPCMessage) (now : Int) :
    QueueKept id (u.call id (.send msg now)) := by
  obtain ⟨queue, hqueue, hcount⟩ := h.counted
  rcases lt_or_ge queue.currentMessages queue.maxMessages with hroom | hfull
  · obtain ⟨hzero, hafter⟩ := unixMsgsnd_room msg now hqueue hroom
    have hsent : (u.call id (.send msg now)).sent = u.sent ++ [msg.content] := if_pos hzero
    constructor
    · rw [FifoSoFar, hsent]
      exact h.fifo.trans (List.prefix_append _ _)
    · refine ⟨_, hafter, ?_⟩
      rw [hsent, List.length_append, List.length_singleton]
      change queue.currentMessages + 1 + (u.delivered.length : Int) = _
      omega
  · have hsame : u.call id (.send msg now) = u := by
      rw [QueueUse.call, unixMsgsnd_full hqueue hfull]
      rfl
    rw [hsame]
    exact h

theorem pending_of_count {queue : MessageQueue}
    (hcount : queue.currentMessages + u.delivered.length = u.sent.length)
    (hsome : 0 < queue.currentMessages) : ∃ content, u.sent[u.delivered.length]? = some content :=
  ⟨_, List.getElem?_eq_getElem (by omega)⟩

theorem prefix_snoc_iff {α : Type} {l l' : List α} {a b : α} (h : l <+: l')
    (ha : l'[l.length]? = some a) : l ++ [b] <+: l' ↔ a = b := by
  obtain ⟨rest, rfl⟩ := h
  rw [List.getElem?_append_right (Nat.le_refl _), Nat.sub_self] at ha
  cases rest with
  | nil => cases ha
  | cons x rest =>
    obtain rfl := Option.some.inj ha
    rw [List.prefix_append_right_inj]
    simp [eq_comm]

theorem receive_cases (h : QueueKept id u) (msg : IPCMessage) (type now : Int) :
    (u.call id (.receive msg type now) = u ∧ (unixMsgrcv u.ipc id msg type now).2.2 = -1 ∧
      u.delivered.length = u.sent.length) ∨
    (unixMsgrcv u.ipc id msg type now).2.2 = 0 ∧ ∃ content queue,
      u.sent[u.delivered.length]? = some content ∧
      (u.call id (.receive msg type now)).sent = u.sent ∧
      (u.call id (.receive msg type now)).delivered = u.delivered ++ [sampleContent] ∧
      holder MessageQueue.id (u.call id (.receive msg type now)).ipc.messageQueues id =
        some queue ∧ queue.currentMessages + (u.delivered.length + 1) = u.sent.length := by
  obtain ⟨queue, hqueue, hcount⟩ := h.counted
  rcases lt_or_ge 0 queue.currentMessages with hsome | hempty
  · obtain ⟨hzero, hcontent, hafter⟩ :=
      unixMsgrcv_some msg type now hqueue hsome
    obtain ⟨content, hpending⟩ := pending_of_count hcount hsome
    refine .inr ⟨hzero, content, _, hpending, rfl, ?_, hafter, ?_⟩
    · exact (if_pos hzero).trans (by rw [hcontent])
    · change queue.currentMessages - 1 + (u.delivered.length + 1 : Int) = _
      omega
  · have hfails := unixMsgrcv_empty msg type now hqueue hempty
    have hbehind := h.fifo.length_le
    refine .inl ⟨?_, by rw [hfails], by omega⟩
    rw [QueueUse.call, hfails]
    rfl

theorem fifo_receive_iff (h : QueueKept id u) (msg : IPCMessage) (type now : Int) :
    FifoSoFar (u.call id (.receive msg type now)) ↔
      oldestIsSample u (.receive msg type now) = true := by
  rw [oldestIsSample]
  rcases receive_cases h msg type now with ⟨hsame, _, hall⟩ | ⟨_, content, _, hpending, hsent, hgot, _⟩
  · have hnone : u.sent[u.delivered.length]? = none := List.getElem?_eq_none (by omega)
    rw [hsame, hnone]
    exact iff_of_true h.fifo rfl
  · rw [FifoSoFar, hsent, hgot, prefix_snoc_iff h.fifo hpending, hpending]
    simp

theorem queueKept_receive (h : QueueKept id u) {msg : IPCMessage} {type now : Int}
    (hsample : oldestIsSample u (.receive msg type now) = true) :
    QueueKept id (u.call id (.receive msg type now)) := by
  refine ⟨(fifo_receive_iff h msg type now).mpr hsample, ?_⟩
  rcases receive_cases h msg type now with
    ⟨hsame, _⟩ | ⟨_, _, queue, _, hsent, hgot, hqueue, hcount⟩
  · rw [hsame]
    exact h.counted
  · refine ⟨queue, hqueue, ?_⟩
    rw [hsent, hgot, List.length_append, List.length_singleton]
    exact_mod_cast hcount

theorem queueKept_call (h : QueueKept id u) (hsample : oldestIsSample u c = true) :
    QueueKept id (u.call id c) := by
  cases c with
  | send msg now => exact queueKept_send h msg now
  | receive msg type now => exact queueKept_receive h hsample

theorem fifo_iff_sample (h : QueueKept id u) (c : QueueCall) :
    FifoSoFar (u.call id c) ↔ oldestIsSample u c = true := by
  cases c with
  | send msg now => exact iff_of_true (queueKept_send h msg now).fifo rfl
  | receive msg type now => exact fifo_receive_iff h msg type now

theorem fails_when_all_delivered (h : QueueKept id u) : FailsOnlyWhenAllDelivered id u := by
  intro msg type now hfails
  rcases receive_cases h msg type now with ⟨_, _, hall⟩ | ⟨hzero, _⟩
  · exact hall
  · exact absurd hzero hfails

structure QueueMade (s : IpcState) (name : Bytes) (flags now : Int) (made : IpcState) (id : Int) :
    Prop where
  get : unixMsgget s name flags now = (made, id)
  grows : s.messageQueues.length < made.messageQueues.length
  fresh : idFree s (.msgget name flags now) = true

theorem queueKept_made (hmade : QueueMade s name flags now made id) :
    QueueKept id ⟨made, [], []⟩ := by
  obtain ⟨hget, hgrows, hfresh⟩ := hmade
  have hstate : made = (unixMsgget s name flags now).1 := by rw [hget]
  have hid : id = (unixMsgget s name flags now).2 := by rw [hget]
  rw [hstate] at hgrows
  obtain ⟨queue, hnew, hqueue⟩ := get_created (makes_messageQueue name flags now) hfresh hgrows
  obtain rfl := Option.some.inj hnew
  rw [hstate, hid]
  exact ⟨List.prefix_rfl, _, hqueue, rfl⟩

abbrev QueueRun (s : IpcState) (id : Int) (allowed : QueueUse → QueueCall → Bool) :=
  Run (fun u c => some (u.call id c)) (fun u c => allowed u c = true) ⟨s, [], []⟩

theorem queue_fifo_while_sample {calls : List QueueCall}
    (hmade : QueueMade s name flags now made id)
    (hrun : QueueRun made id oldestIsSample calls u) :
    FifoSoFar u ∧ FailsOnlyWhenAllDelivered id u ∧
      ∀ c, FifoSoFar (u.call id c) ↔ oldestIsSample u c = true := by
  have hkept : QueueKept id u := by
    refine hrun.invariant (queueKept_made hmade) ?_
    intro u c u' hu hsample hstep
    obtain rfl := Option.some.inj hstep
    exact queueKept_call hu hsample
  exact ⟨hkept.fifo, fails_when_all_delivered hkept, fifo_iff_sample hkept⟩

def logQueue : IpcState := (unixMsgget ipcZero (str "system.log") 0o666 0).1

theorem log_queue_made : QueueMade ipcZero (str "system.log") 0o666 0 logQueue 1 :=
  ⟨by decide, by decide, by decide⟩

def blank : IPCMessage := ⟨0, List.replicate 256 0, 0, 0⟩

def sample : IPCMessage := ⟨0, sampleMessage ++ List.replicate 231 0, 25, 0⟩

def hello : IPCMessage := ⟨1, str "hello" ++ List.replicate 251 0, 5, 0⟩

def queueUsed (calls : List QueueCall) : QueueUse :=
  calls.foldl (QueueUse.call 1) ⟨logQueue, [], []⟩

theorem sample_sent : QueueRun logQueue 1 oldestIsSample
    [.send sample 1, .receive blank 0 2, .send hello 3]
    (queueUsed [.send sample 1, .receive blank 0 2, .send hello 3]) :=
  Run.of_exec (by decide)

theorem queue_fifo_sample_sent :
    FifoSoFar (queueUsed [.send sample 1, .receive blank 0 2, .send hello 3]) ∧
      FailsOnlyWhenAllDelivered 1 (queueUsed [.send sample 1, .receive blank 0 2, .send hello 3]) ∧
      ∀ c, FifoSoFar ((queueUsed [.send sample 1, .receive blank 0 2, .send hello 3]).call 1 c) ↔
        oldestIsSample (queueUsed [.send sample 1, .receive blank 0 2, .send hello 3]) c = true :=
  queue_fifo_while_sample log_queue_made sample_sent

theorem msgrcv_loses_the_message :
    ¬ ∀ (s made : IpcState) (name : Bytes) (flags now id : Int) (calls : List QueueCall)
      (u : QueueUse), QueueMade s name flags now made id →
      QueueRun made id (fun _ _ => true) calls u →
      FifoSoFar u ∧ FailsOnlyWhenAllDelivered id u := by
  intro hall
  have h := (hall _ _ _ _ _ _ [.send hello 1, .receive blank 0 2]
    (queueUsed [.send hello 1, .receive blank 0 2]) log_queue_made
    (Run.of_exec (by decide))).1
  exact absurd h (by unfold FifoSoFar; decide)

end Fifo

end ZoraVM.Unix

import ZoraVM.Foundation.CInt
import ZoraVM.Foundation.DoubleList
import ZoraVM.Foundation.Ownership
import ZoraVM.Foundation.WordLoop
import ZoraVM.Kernel.Scheduler

namespace ZoraVM.Kernel.Queues

open Foundation

section Source

-- A process is named by its address, and so is a node.
structure ProcessQueueNode where
  process : Nat
  next : Option Nat
  prev : Option Nat
  deriving DecidableEq, Repr

structure ProcessQueue where
  head : Option Nat
  tail : Option Nat
  count : Int
  deriving DecidableEq, Repr

structure QueueState where
  nodes : Heap ProcessQueueNode
  queue : ProcessQueue
  deriving DecidableEq, Repr

def nodeAt (nodes : Heap ProcessQueueNode) (p : Nat) : Checked ProcessQueueNode :=
  match nodes.get p with
  | some node => .ok node
  | none => .error (.fault .freedNode)

def setNext (nodes : Heap ProcessQueueNode) (p : Nat) (target : Option Nat) :
    Checked (Heap ProcessQueueNode) := do
  let node ← nodeAt nodes p
  .ok (nodes.put p { node with next := target })

def setPrev (nodes : Heap ProcessQueueNode) (p : Nat) (target : Option Nat) :
    Checked (Heap ProcessQueueNode) := do
  let node ← nodeAt nodes p
  .ok (nodes.put p { node with prev := target })

def queueInit (s : QueueState) : QueueState := { s with queue := ⟨none, none, 0⟩ }

-- allocated: whether malloc has a node.
def allocQueueNode (nodes : Heap ProcessQueueNode) (process : Nat) (allocated : Bool) :
    Option Nat × Heap ProcessQueueNode :=
  if allocated then (some nodes.size, nodes.alloc ⟨process, none, none⟩) else (none, nodes)

def queueEnqueue (s : QueueState) (process : Nat) (allocated : Bool) : Checked QueueState :=
  match allocQueueNode s.nodes process allocated with
  | (none, _) => .ok s
  | (some node, nodes) =>
    match s.queue.tail with
    | some t => do
      let nodes ← setNext nodes t (some node)
      let nodes ← setPrev nodes node (some t)
      let count ← checkedInt (s.queue.count + 1)
      .ok ⟨nodes, { s.queue with tail := some node, count := count }⟩
    | none => do
      let count ← checkedInt (s.queue.count + 1)
      .ok ⟨nodes, ⟨some node, some node, count⟩⟩

def queueDequeue (s : QueueState) : Checked (Option Nat × QueueState) :=
  match s.queue.head with
  | none => .ok (none, s)
  | some p => do
    let node ← nodeAt s.nodes p
    match node.next with
    | some q => do
      let nodes ← setPrev s.nodes q none
      let count ← checkedInt (s.queue.count - 1)
      .ok (some node.process, ⟨nodes.free p, { s.queue with head := some q, count := count }⟩)
    | none => do
      let count ← checkedInt (s.queue.count - 1)
      .ok (some node.process, ⟨s.nodes.free p, ⟨none, none, count⟩⟩)

def unlinkNext (s : QueueState) (node : ProcessQueueNode) : Checked QueueState :=
  match node.prev with
  | some a => do
    let nodes ← setNext s.nodes a node.next
    .ok { s with nodes := nodes }
  | none => .ok { s with queue := { s.queue with head := node.next } }

def unlinkPrev (s : QueueState) (node : ProcessQueueNode) : Checked QueueState :=
  match node.next with
  | some b => do
    let nodes ← setPrev s.nodes b node.prev
    .ok { s with nodes := nodes }
  | none => .ok { s with queue := { s.queue with tail := node.prev } }

-- The loop of queue_remove, from a node on; `none` where the fuel does not reach.
def removeFrom (s : QueueState) (process : Nat) : Nat → Option Nat → Checked (Option QueueState)
  | 0, _ => .ok none
  | _ + 1, none => .ok (some s)
  | fuel + 1, some p => do
    let node ← nodeAt s.nodes p
    if node.process = process then do
      let s ← unlinkNext s node
      let s ← unlinkPrev s node
      let count ← checkedInt (s.queue.count - 1)
      .ok (some ⟨s.nodes.free p, { s.queue with count := count }⟩)
    else removeFrom s process fuel node.next

def queueRemove (fuel : Nat) (s : QueueState) (process : Nat) : Checked (Option QueueState) :=
  removeFrom s process fuel s.queue.head

inductive QueueCall where
  | enqueue (process : Nat) (allocated : Bool)
  | dequeue
  | remove (process : Nat)
  deriving DecidableEq, Repr

def queueCall (fuel : Nat) (s : QueueState) : QueueCall → Checked (Option (Option Nat × QueueState))
  | .enqueue process allocated => (fun s => some (none, s)) <$> queueEnqueue s process allocated
  | .dequeue => some <$> queueDequeue s
  | .remove process => Option.map (none, ·) <$> queueRemove fuel s process

def queueCalls (fuel : Nat) : QueueState → List QueueCall →
    Checked (Option (List (Option Nat) × QueueState))
  | s, [] => .ok (some ([], s))
  | s, call :: calls => do
    match ← queueCall fuel s call with
    | none => .ok none
    | some (answer, s) => Option.map (fun r => (answer :: r.1, r.2)) <$> queueCalls fuel s calls

end Source

section Lists

def listCall (queue : List Nat) : QueueCall → Option Nat × List Nat
  | .enqueue process allocated =>
    (none, if allocated then Kernel.queueEnqueue queue process else queue)
  | .dequeue => Kernel.queueDequeue queue
  | .remove process => (none, Kernel.queueRemove queue process)

def listCalls : List Nat → List QueueCall → List (Option Nat) × List Nat
  | queue, [] => ([], queue)
  | queue, call :: calls =>
    let done := listCall queue call
    let rest := listCalls done.2 calls
    (done.1 :: rest.1, rest.2)

end Lists

section Views

variable {nodes nodes' : Heap ProcessQueueNode} {p q : Nat} {target before : Option Nat}

def nextOf (nodes : Heap ProcessQueueNode) (p : Nat) : Option Nat := (nodes.get p).bind (·.next)

def prevOf (nodes : Heap ProcessQueueNode) (p : Nat) : Option Nat := (nodes.get p).bind (·.prev)

def processOf (nodes : Heap ProcessQueueNode) (p : Nat) : Option Nat := (nodes.get p).map (·.process)

def Counts (count : Int) (processes : List Nat) : Prop :=
  count = processes.length ∧ processes.length ≤ 2147483647

-- The chain from the head, the one from the tail read backwards, and the count are all those of one
-- list of processes.
def Queued (s : QueueState) (processes : List Nat) : Prop :=
  ∃ ps, Linked (nextOf s.nodes) (prevOf s.nodes) s.queue.head s.queue.tail ps ∧
    ps.map (processOf s.nodes) = processes.map some ∧ Counts s.queue.count processes

def Holds (nodes : Heap ProcessQueueNode) (queue : ProcessQueue) (ps processes : List Nat) : Prop :=
  Linked (nextOf nodes) (prevOf nodes) queue.head queue.tail ps ∧
    ps.map (processOf nodes) = processes.map some ∧ Counts queue.count processes

theorem exists_node (h : processOf nodes p = some q) : ∃ node, nodes.get p = some node ∧
    node.process = q ∧ node.next = nextOf nodes p ∧ node.prev = prevOf nodes p := by
  obtain ⟨node, hnode, rfl⟩ := Option.map_eq_some_iff.mp h
  exact ⟨node, hnode, rfl, by rw [nextOf, hnode]; rfl, by rw [prevOf, hnode]; rfl⟩

theorem nodeAt_eq {node : ProcessQueueNode} (h : nodes.get p = some node) :
    nodeAt nodes p = .ok node := by
  rw [nodeAt, h]

theorem views_put {node : ProcessQueueNode} (hp : p < nodes.size) :
    nextOf (nodes.put p node) = Function.update (nextOf nodes) p node.next ∧
      prevOf (nodes.put p node) = Function.update (prevOf nodes) p node.prev ∧
      processOf (nodes.put p node) = Function.update (processOf nodes) p (some node.process) := by
  have hself := Heap.get_put_self (a := node) hp
  refine ⟨?_, ?_, ?_⟩
  all_goals
    funext q
    by_cases hq : q = p
    · subst hq
      simp [nextOf, prevOf, processOf, hself]
    · simp [nextOf, prevOf, processOf, Heap.get_put_of_ne hq, hq]

theorem setNext_eq (h : (processOf nodes p).isSome = true) (target : Option Nat) :
    ∃ nodes', setNext nodes p target = .ok nodes' ∧
      nextOf nodes' = Function.update (nextOf nodes) p target ∧ prevOf nodes' = prevOf nodes ∧
      processOf nodes' = processOf nodes := by
  obtain ⟨x, hx⟩ := Option.isSome_iff_exists.mp h
  obtain ⟨node, hnode, rfl, -, hprev⟩ := exists_node hx
  obtain ⟨hnext', hprev', hprocess'⟩ :=
    @views_put nodes p { node with next := target } (Heap.lt_size_of_get hnode)
  refine ⟨_, ?_, hnext', ?_, ?_⟩
  · simp only [setNext, nodeAt_eq hnode, bind, Except.bind]
  · rw [hprev', hprev, Function.update_eq_self]
  · rw [hprocess', ← hx, Function.update_eq_self]

theorem setPrev_eq (h : (processOf nodes p).isSome = true) (target : Option Nat) :
    ∃ nodes', setPrev nodes p target = .ok nodes' ∧ nextOf nodes' = nextOf nodes ∧
      prevOf nodes' = Function.update (prevOf nodes) p target ∧ processOf nodes' = processOf nodes := by
  obtain ⟨x, hx⟩ := Option.isSome_iff_exists.mp h
  obtain ⟨node, hnode, rfl, hnext, -⟩ := exists_node hx
  obtain ⟨hnext', hprev', hprocess'⟩ :=
    @views_put nodes p { node with prev := target } (Heap.lt_size_of_get hnode)
  refine ⟨_, ?_, ?_, hprev', ?_⟩
  · simp only [setPrev, nodeAt_eq hnode, bind, Except.bind]
  · rw [hnext', hnext, Function.update_eq_self]
  · rw [hprocess', ← hx, Function.update_eq_self]

theorem views_alloc_of_ne (hq : q ≠ nodes.size) (node : ProcessQueueNode) :
    nextOf (nodes.alloc node) q = nextOf nodes q ∧ prevOf (nodes.alloc node) q = prevOf nodes q ∧
      processOf (nodes.alloc node) q = processOf nodes q := by
  simp only [nextOf, prevOf, processOf, Heap.get_alloc_of_ne hq, and_self]

theorem views_free_of_ne (hq : q ≠ p) : nextOf (nodes.free p) q = nextOf nodes q ∧
    prevOf (nodes.free p) q = prevOf nodes q ∧ processOf (nodes.free p) q = processOf nodes q := by
  simp only [nextOf, prevOf, processOf, Heap.get_free_of_ne hq, and_self]

theorem lt_size_of_processOf (h : (processOf nodes p).isSome = true) : p < nodes.size := by
  obtain ⟨x, hx⟩ := Option.isSome_iff_exists.mp h
  obtain ⟨node, hnode, -⟩ := exists_node hx
  exact Heap.lt_size_of_get hnode

theorem live_eq (nodes : Heap ProcessQueueNode) (p : Nat) :
    nodes.live p = (processOf nodes p).isSome := by
  rw [processOf, Option.isSome_map]
  rfl

theorem get_eq_of_views (hnext : nextOf nodes' q = nextOf nodes q)
    (hprev : prevOf nodes' q = prevOf nodes q) (hprocess : processOf nodes' q = processOf nodes q) :
    nodes'.get q = nodes.get q := by
  unfold nextOf at hnext
  unfold prevOf at hprev
  unfold processOf at hprocess
  cases hnode : nodes.get q with
  | none =>
    rw [hnode] at hprocess
    exact Option.map_eq_none_iff.mp hprocess
  | some node =>
    rw [hnode] at hnext hprev hprocess
    obtain ⟨node', hnode', hsame⟩ := Option.map_eq_some_iff.mp hprocess
    rw [hnode'] at hnext hprev ⊢
    exact congrArg some (by cases node; cases node'; simp_all)

end Views

section Enqueue

variable {s : QueueState} {processes : List Nat} {ps : List Nat} {process : Nat}

theorem counts_nil : Counts 0 [] := ⟨rfl, Nat.zero_le _⟩

theorem queued_init (s : QueueState) : Queued (queueInit s) [] := ⟨[], Linked.nil, rfl, counts_nil⟩

theorem Counts.enqueue {count : Int} (h : Counts count processes)
    (hroom : processes.length < 2147483647) (process : Nat) :
    checkedInt (count + 1) = .ok (count + 1) ∧
      Counts (count + 1) (Kernel.queueEnqueue processes process) := by
  obtain ⟨rfl, -⟩ := h
  refine ⟨if_pos ⟨by omega, by omega⟩, ?_, ?_⟩
  · simp [Kernel.queueEnqueue]
  · rw [Kernel.queueEnqueue, List.length_append]
    exact hroom

theorem Counts.full {count : Int} (h : Counts count processes)
    (hfull : ¬ processes.length < 2147483647) : checkedInt (count + 1) = .error .intOverflow := by
  obtain ⟨rfl, -⟩ := h
  refine if_neg fun hint => ?_
  have hle := hint.2
  omega

theorem Counts.shorter {count : Int} {left : List Nat} (h : Counts count processes)
    (hleft : processes.length = left.length + 1) :
    checkedInt (count - 1) = .ok (count - 1) ∧ Counts (count - 1) left := by
  obtain ⟨rfl, hle⟩ := h
  refine ⟨if_pos ⟨by omega, by omega⟩, by omega, by omega⟩

theorem live_of_map {nodes : Heap ProcessQueueNode}
    (h : ps.map (processOf nodes) = processes.map some) :
    ∀ p ∈ ps, (processOf nodes p).isSome = true := by
  intro p hp
  have hmem := List.mem_map_of_mem (f := processOf nodes) hp
  rw [h] at hmem
  obtain ⟨x, -, hx⟩ := List.mem_map.mp hmem
  rw [← hx]
  rfl

theorem queued_alloc (hlinked : Linked (nextOf s.nodes) (prevOf s.nodes) s.queue.head s.queue.tail ps)
    (hmap : ps.map (processOf s.nodes) = processes.map some) (process : Nat) :
    ∃ nodes, s.nodes.alloc ⟨process, none, none⟩ = nodes ∧
      Linked (nextOf nodes) (prevOf nodes) s.queue.head s.queue.tail ps ∧ s.nodes.size ∉ ps ∧
      nextOf nodes s.nodes.size = none ∧ prevOf nodes s.nodes.size = none ∧
      (ps ++ [s.nodes.size]).map (processOf nodes) =
        (Kernel.queueEnqueue processes process).map some := by
  have hfresh : s.nodes.size ∉ ps := fun hmem =>
    Nat.lt_irrefl _ (lt_size_of_processOf (live_of_map hmap _ hmem))
  have hviews : ∀ q ∈ ps, _ := fun q hq =>
    views_alloc_of_ne (ne_of_mem_of_not_mem hq hfresh) ⟨process, none, none⟩
  have hself := Heap.get_alloc_self s.nodes ⟨process, none, none⟩
  refine ⟨_, rfl, hlinked.congr (fun q hq => (hviews q hq).1) fun q hq => (hviews q hq).2.1, hfresh,
    ?_, ?_, ?_⟩
  · rw [nextOf, hself]
    rfl
  · rw [prevOf, hself]
    rfl
  · have hprocess : processOf (s.nodes.alloc ⟨process, none, none⟩) s.nodes.size = some process := by
      rw [processOf, hself]
      rfl
    rw [List.map_append, List.map_congr_left fun q hq => (hviews q hq).2.2, hmap, Kernel.queueEnqueue,
      List.map_append, List.map_singleton, List.map_singleton, hprocess]

theorem Holds.live {nodes : Heap ProcessQueueNode} {queue : ProcessQueue}
    (h : Holds nodes queue ps processes) : ∀ p ∈ ps, nodes.live p = true := fun p hp => by
  rw [live_eq]
  exact live_of_map h.2.1 p hp

theorem turns_enqueue {nodes nodes' : Heap ProcessQueueNode} {queue' : ProcessQueue}
    {left : List Nat} (h' : Holds nodes' queue' (ps ++ [nodes.size]) left)
    (hsame : ∀ q, q ∉ ps → q ≠ nodes.size → nodes'.get q = nodes.get q) :
    Turns nodes nodes' ps (ps ++ [nodes.size]) := by
  refine ⟨fun hq hq' => hsame _ hq fun heq => hq' ?_, fun hq => ?_, fun hq hq' => ?_,
    fun hq => h'.live _ hq⟩
  · rw [heq]
    exact List.mem_append_right _ List.mem_cons_self
  · rcases List.mem_append.mp hq with hq | hq
    · exact .inl hq
    · refine .inr ?_
      rw [List.mem_singleton.mp hq, Heap.live, Heap.get_size]
      rfl
  · exact absurd (List.mem_append_left _ hq) hq'

theorem Holds.enqueue (h : Holds s.nodes s.queue ps processes)
    (hroom : processes.length < 2147483647) (process : Nat) :
    ∃ s', queueEnqueue s process true = .ok s' ∧
      Holds s'.nodes s'.queue (ps ++ [s.nodes.size]) (Kernel.queueEnqueue processes process) ∧
      Turns s.nodes s'.nodes ps (ps ++ [s.nodes.size]) := by
  obtain ⟨hlinked, hmap, hcount⟩ := h
  obtain ⟨nodes, hnodes, hkept, hfresh, hnext, hprev, hmap'⟩ := queued_alloc hlinked hmap process
  have hfirst : ∀ q, q ≠ s.nodes.size → nodes.get q = s.nodes.get q := fun q hq => by
    rw [← hnodes, Heap.get_alloc_of_ne hq]
  have hlonger := hkept.concat hfresh hnext
  have hlive := live_of_map hmap'
  obtain ⟨hchecked, hcount'⟩ := hcount.enqueue hroom process
  cases htail : s.queue.tail with
  | none =>
    have hsame : Function.update (prevOf nodes) s.nodes.size none = prevOf nodes := by
      rw [← hprev, Function.update_eq_self]
    rw [htail, hsame] at hlonger
    have hheld : Holds nodes ⟨some s.nodes.size, some s.nodes.size, s.queue.count + 1⟩
        (ps ++ [s.nodes.size]) (Kernel.queueEnqueue processes process) := ⟨hlonger, hmap', hcount'⟩
    refine ⟨⟨nodes, ⟨some s.nodes.size, some s.nodes.size, s.queue.count + 1⟩⟩, ?_, hheld,
      turns_enqueue hheld fun q _ hq => hfirst q hq⟩
    simp only [queueEnqueue, allocQueueNode, if_true, htail, hnodes, bind, Except.bind, hchecked]
  | some t =>
    have ht : t ∈ ps := List.mem_of_getLast? (hlinked.tail_eq ▸ htail)
    obtain ⟨nodes₂, hset₂, hnext₂, hprev₂, hprocess₂⟩ :=
      setNext_eq (hlive t (List.mem_append_left _ ht)) (some s.nodes.size)
    obtain ⟨nodes₃, hset₃, hnext₃, hprev₃, hprocess₃⟩ := @setPrev_eq nodes₂ s.nodes.size
      (by rw [hprocess₂]; exact hlive _ (List.mem_append_right _ List.mem_cons_self)) (some t)
    rw [htail] at hlonger
    have hheld : Holds nodes₃ { s.queue with tail := some s.nodes.size, count := s.queue.count + 1 }
        (ps ++ [s.nodes.size]) (Kernel.queueEnqueue processes process) := by
      refine ⟨?_, ?_, hcount'⟩
      · rw [hnext₃, hprev₃, hnext₂, hprev₂]
        exact hlonger
      · rw [hprocess₃, hprocess₂]
        exact hmap'
    refine ⟨⟨nodes₃, { s.queue with tail := some s.nodes.size, count := s.queue.count + 1 }⟩, ?_,
      hheld, turns_enqueue hheld fun q hq hq' => ?_⟩
    · simp only [queueEnqueue, allocQueueNode, if_true, htail, hnodes, bind, Except.bind, hset₂, hset₃,
        hchecked]
    · rw [← hfirst q hq']
      refine get_eq_of_views ?_ ?_ (by rw [hprocess₃, hprocess₂])
      · rw [hnext₃, hnext₂, Function.update_of_ne (ne_of_mem_of_not_mem ht hq).symm]
      · rw [hprev₃, hprev₂, Function.update_of_ne hq']

theorem Queued.enqueue (h : Queued s processes) (hroom : processes.length < 2147483647)
    (process : Nat) : ∃ s', queueEnqueue s process true = .ok s' ∧
      Queued s' (Kernel.queueEnqueue processes process) := by
  obtain ⟨ps, hheld⟩ := h
  obtain ⟨s', hrun, hheld', -⟩ := Holds.enqueue hheld hroom process
  exact ⟨s', hrun, _, hheld'⟩

theorem Queued.enqueue_full (h : Queued s processes) (hfull : ¬ processes.length < 2147483647)
    (process : Nat) : queueEnqueue s process true = .error .intOverflow := by
  obtain ⟨ps, hlinked, hmap, hcount⟩ := h
  obtain ⟨nodes, hnodes, -, -, -, -, hmap'⟩ := queued_alloc hlinked hmap process
  have hlive := live_of_map hmap'
  have hchecked := hcount.full hfull
  cases htail : s.queue.tail with
  | none =>
    simp only [queueEnqueue, allocQueueNode, if_true, htail, hnodes, bind, Except.bind, hchecked]
  | some t =>
    have ht : t ∈ ps := List.mem_of_getLast? (hlinked.tail_eq ▸ htail)
    obtain ⟨nodes₂, hset₂, -, -, hprocess₂⟩ :=
      setNext_eq (hlive t (List.mem_append_left _ ht)) (some s.nodes.size)
    obtain ⟨nodes₃, hset₃, -⟩ := @setPrev_eq nodes₂ s.nodes.size
      (by rw [hprocess₂]; exact hlive _ (List.mem_append_right _ List.mem_cons_self)) (some t)
    simp only [queueEnqueue, allocQueueNode, if_true, htail, hnodes, bind, Except.bind, hset₂, hset₃,
      hchecked]

end Enqueue

section Unlink

variable {s s' : QueueState} {node : ProcessQueueNode} {processes left : List Nat}
variable {front behind : List Nat} {p process : Nat}

structure Unlinked (s : QueueState) (p : Nat) (s' : QueueState) : Prop where
  next : nextOf s'.nodes = bypass (nextOf s.nodes) (prevOf s.nodes p) (nextOf s.nodes p)
  prev : prevOf s'.nodes = bypass (prevOf s.nodes) (nextOf s.nodes p) (prevOf s.nodes p)
  process : processOf s'.nodes = processOf s.nodes
  head : s'.queue.head = bypassHead s.queue.head (prevOf s.nodes p) (nextOf s.nodes p)
  tail : s'.queue.tail = bypassHead s.queue.tail (nextOf s.nodes p) (prevOf s.nodes p)

theorem Unlinked.holds (h : Unlinked s p s')
    (hlinked : Linked (nextOf s.nodes) (prevOf s.nodes) s.queue.head s.queue.tail
      (front ++ p :: behind))
    (hmap : (front ++ behind).map (processOf s.nodes) = left.map some)
    (hcount : Counts (s.queue.count - 1) left) :
    Holds (s'.nodes.free p) { s'.queue with count := s.queue.count - 1 } (front ++ behind) left ∧
      Turns s.nodes (s'.nodes.free p) (front ++ p :: behind) (front ++ behind) := by
  have hp : p ∉ front ++ behind := by
    have hnodup := hlinked.nodup
    rw [List.nodup_middle] at hnodup
    exact (List.nodup_cons.mp hnodup).1
  have hviews : ∀ q, q ≠ p → _ := fun q hq => @views_free_of_ne s'.nodes p q hq
  have hheld : Holds (s'.nodes.free p) { s'.queue with count := s.queue.count - 1 } (front ++ behind)
      left := by
    refine ⟨?_, ?_, ?_⟩
    · have hskipped := hlinked.unlink
      rw [← h.next, ← h.prev, ← h.head, ← h.tail] at hskipped
      exact hskipped.congr (fun q hq => (hviews q (ne_of_mem_of_not_mem hq hp)).1)
        fun q hq => (hviews q (ne_of_mem_of_not_mem hq hp)).2.1
    · rw [List.map_congr_left fun q hq => (hviews q (ne_of_mem_of_not_mem hq hp)).2.2, h.process]
      exact hmap
    · exact hcount
  refine ⟨hheld, fun {q} hq _ => ?_, fun hq => ?_, fun {q} hq hq' => ?_, fun hq => hheld.live _ hq⟩
  · -- The neighbours of p, which are written, are on the list.
    have hqp : q ≠ p := fun heq => hq (heq ▸ List.mem_append_right _ List.mem_cons_self)
    obtain ⟨hnext, hprev, hprocess⟩ := hviews q hqp
    refine get_eq_of_views ?_ ?_ ?_
    · rw [hnext, h.next, bypass_of_notMem fun hmem => hq ?_]
      rw [hlinked.prev_eq] at hmem
      exact List.mem_append_left _ (List.mem_of_getLast? hmem)
    · rw [hprev, h.prev, bypass_of_notMem fun hmem => hq ?_]
      rw [hlinked.next_eq] at hmem
      exact List.mem_append_right _ (List.mem_cons_of_mem p (List.mem_of_mem_head? hmem))
    · rw [hprocess, h.process]
  · rcases List.mem_append.mp hq with hq | hq
    · exact .inl (List.mem_append_left _ hq)
    · exact .inl (List.mem_append_right _ (List.mem_cons_of_mem p hq))
  · obtain rfl : q = p := by
      by_contra hne
      rcases List.mem_append.mp hq with hq | hq
      · exact hq' (List.mem_append_left _ hq)
      · exact hq' (List.mem_append_right _ ((List.mem_cons.mp hq).resolve_left hne))
    rw [Heap.live, Heap.get_free_self]
    rfl

theorem unlinkNext_eq (hlive : ∀ a ∈ node.prev, (processOf s.nodes a).isSome = true) :
    ∃ nodes, unlinkNext s node =
        .ok ⟨nodes, { s.queue with head := bypassHead s.queue.head node.prev node.next }⟩ ∧
      nextOf nodes = bypass (nextOf s.nodes) node.prev node.next ∧ prevOf nodes = prevOf s.nodes ∧
      processOf nodes = processOf s.nodes := by
  cases hbefore : node.prev with
  | none =>
    refine ⟨s.nodes, ?_, rfl, rfl, rfl⟩
    simp only [unlinkNext, hbefore, bypassHead]
  | some a =>
    obtain ⟨nodes, hset, hviews⟩ := setNext_eq (hlive a hbefore) node.next
    refine ⟨nodes, ?_, hviews⟩
    simp only [unlinkNext, hbefore, hset, bind, Except.bind, bypassHead]

theorem unlinkPrev_eq (hlive : ∀ b ∈ node.next, (processOf s.nodes b).isSome = true) :
    ∃ nodes, unlinkPrev s node =
        .ok ⟨nodes, { s.queue with tail := bypassHead s.queue.tail node.next node.prev }⟩ ∧
      nextOf nodes = nextOf s.nodes ∧ prevOf nodes = bypass (prevOf s.nodes) node.next node.prev ∧
      processOf nodes = processOf s.nodes := by
  cases hafter : node.next with
  | none =>
    refine ⟨s.nodes, ?_, rfl, rfl, rfl⟩
    simp only [unlinkPrev, hafter, bypassHead]
  | some b =>
    obtain ⟨nodes, hset, hviews⟩ := setPrev_eq (hlive b hafter) node.prev
    refine ⟨nodes, ?_, hviews⟩
    simp only [unlinkPrev, hafter, hset, bind, Except.bind, bypassHead]

theorem unlinked (hnode : s.nodes.get p = some node)
    (hprev : ∀ a ∈ node.prev, (processOf s.nodes a).isSome = true)
    (hnext : ∀ b ∈ node.next, (processOf s.nodes b).isSome = true) :
    ∃ s₁ s₂, unlinkNext s node = .ok s₁ ∧ unlinkPrev s₁ node = .ok s₂ ∧ Unlinked s p s₂ ∧
      s₂.queue.count = s.queue.count := by
  have hnextOf : nextOf s.nodes p = node.next := by rw [nextOf, hnode]; rfl
  have hprevOf : prevOf s.nodes p = node.prev := by rw [prevOf, hnode]; rfl
  obtain ⟨nodes₁, hrun₁, hnext₁, hprev₁, hprocess₁⟩ := unlinkNext_eq hprev
  rw [← hprocess₁] at hnext
  obtain ⟨nodes₂, hrun₂, hnext₂, hprev₂, hprocess₂⟩ := @unlinkPrev_eq
    ⟨nodes₁, { s.queue with head := bypassHead s.queue.head node.prev node.next }⟩ node hnext
  refine ⟨_, _, hrun₁, hrun₂, ⟨?_, ?_, ?_, ?_, ?_⟩, rfl⟩
  · rw [hnext₂, hnext₁, hnextOf, hprevOf]
  · rw [hprev₂, hprev₁, hnextOf, hprevOf]
  · rw [hprocess₂, hprocess₁]
  · rw [hnextOf, hprevOf]
  · rw [hnextOf, hprevOf]

theorem neighbours (hlinked : Linked (nextOf s.nodes) (prevOf s.nodes) s.queue.head s.queue.tail
    (front ++ p :: behind)) (hnode : s.nodes.get p = some node) :
    node.prev = front.getLast? ∧ node.next = behind.head? := by
  have hprev := hlinked.prev_eq
  have hnext := hlinked.next_eq
  rw [prevOf, hnode] at hprev
  rw [nextOf, hnode] at hnext
  exact ⟨hprev, hnext⟩

end Unlink

section Removal

variable {s : QueueState} {processes front suffix ps : List Nat} {p x process : Nat}

theorem erase_map_some (h : (front ++ p :: suffix).map (processOf s.nodes) = processes.map some)
    (hp : processOf s.nodes p = some x) (hfront : ∀ q ∈ front, processOf s.nodes q ≠ some x) :
    (front ++ suffix).map (processOf s.nodes) = (processes.erase x).map some := by
  have hnot : some x ∉ front.map (processOf s.nodes) := fun hmem => by
    obtain ⟨q, hq, hqx⟩ := List.mem_map.mp hmem
    exact hfront q hq hqx
  rw [List.map_erase (Option.some_injective Nat), ← h, List.map_append, List.map_append,
    List.erase_append_right _ hnot, List.map_cons, hp, List.erase_cons_head]

theorem removed (hlinked : Linked (nextOf s.nodes) (prevOf s.nodes) s.queue.head s.queue.tail
      (front ++ p :: suffix))
    (hmap : (front ++ p :: suffix).map (processOf s.nodes) = processes.map some)
    (hcount : Counts s.queue.count processes) (hp : processOf s.nodes p = some x)
    (hfront : ∀ q ∈ front, processOf s.nodes q ≠ some x) :
    ∃ s', (Holds s'.nodes s'.queue (front ++ suffix) (processes.erase x) ∧
        Turns s.nodes s'.nodes (front ++ p :: suffix) (front ++ suffix)) ∧
      ∀ fuel, removeFrom s x (fuel + 1) (some p) = .ok (some s') := by
  obtain ⟨node, hnode, hprocess, -, -⟩ := exists_node hp
  obtain ⟨hprev, hnext⟩ := neighbours hlinked hnode
  have hlive := live_of_map hmap
  obtain ⟨s₁, s₂, hrun₁, hrun₂, hunlinked, hsame⟩ := unlinked hnode
    (fun a ha => hlive a (List.mem_append_left _ (List.mem_of_getLast? (hprev ▸ ha))))
    (fun b hb => hlive b (List.mem_append_right _ (List.mem_cons_of_mem p
      (List.mem_of_mem_head? (hnext ▸ hb)))))
  have hleft := erase_map_some hmap hp hfront
  have hmem : x ∈ processes := by
    have hmem := List.mem_map_of_mem (f := processOf s.nodes)
      (List.mem_append_right front (List.mem_cons_self (a := p) (l := suffix)))
    rw [hmap, hp] at hmem
    simpa using hmem
  have hleft' : processes.length = (processes.erase x).length + 1 := by
    have hlength := List.length_erase_of_mem hmem
    have hpos := List.length_pos_of_mem hmem
    omega
  obtain ⟨hchecked, hcount'⟩ := hcount.shorter hleft'
  refine ⟨⟨s₂.nodes.free p, { s₂.queue with count := s.queue.count - 1 }⟩,
    hunlinked.holds hlinked hleft hcount', fun fuel => ?_⟩
  simp only [removeFrom, nodeAt_eq hnode, bind, Except.bind, hprocess, if_true, hrun₁, hrun₂, hsame,
    hchecked]

theorem removeFrom_eq (hlinked : Linked (nextOf s.nodes) (prevOf s.nodes) s.queue.head s.queue.tail
      (front ++ suffix))
    (hmap : (front ++ suffix).map (processOf s.nodes) = processes.map some)
    (hcount : Counts s.queue.count processes)
    (hfront : ∀ q ∈ front, processOf s.nodes q ≠ some x) :
    ∃ s' ps', (Holds s'.nodes s'.queue ps' (processes.erase x) ∧
        Turns s.nodes s'.nodes (front ++ suffix) ps') ∧
      ∀ fuel, suffix.length < fuel → removeFrom s x fuel suffix.head? = .ok (some s') := by
  induction suffix generalizing front with
  | nil =>
    rw [List.append_nil] at hlinked hmap
    have hnot : x ∉ processes := fun hmem => by
      have hmem' := List.mem_map_of_mem (f := some) hmem
      rw [← hmap] at hmem'
      obtain ⟨q, hq, hqx⟩ := List.mem_map.mp hmem'
      exact hfront q hq hqx
    have hheld : Holds s.nodes s.queue front processes := ⟨hlinked, hmap, hcount⟩
    rw [List.erase_of_not_mem hnot, List.append_nil]
    refine ⟨s, front, ⟨hheld, .refl hheld.live⟩, fun fuel hfuel => ?_⟩
    obtain ⟨fuel, rfl⟩ := Nat.exists_eq_add_of_lt hfuel
    rfl
  | cons p suffix ih =>
    obtain ⟨y, hy⟩ := Option.isSome_iff_exists.mp (live_of_map hmap p (by simp))
    by_cases hyx : y = x
    · subst hyx
      obtain ⟨s', hheld, hrun⟩ := removed hlinked hmap hcount hy hfront
      refine ⟨s', front ++ suffix, hheld, fun fuel hfuel => ?_⟩
      obtain ⟨fuel, rfl⟩ := Nat.exists_eq_add_of_lt hfuel
      exact hrun _
    · obtain ⟨node, hnode, hprocess, -, -⟩ := exists_node hy
      have hnext := (neighbours hlinked hnode).2
      rw [List.append_cons] at hlinked hmap
      obtain ⟨s', ps', hheld, hrun⟩ := ih hlinked hmap fun q hq => by
        rcases List.mem_append.mp hq with hq | hq
        · exact hfront q hq
        · rw [List.mem_singleton.mp hq, hy]
          exact fun h => hyx (Option.some.inj h)
      rw [← List.append_cons] at hheld
      refine ⟨s', ps', hheld, fun fuel hfuel => ?_⟩
      cases fuel with
      | zero => exact absurd hfuel (Nat.not_lt_zero _)
      | succ fuel =>
        simp only [List.head?_cons, removeFrom, nodeAt_eq hnode, bind, Except.bind, hprocess, hyx,
          if_false, hnext]
        exact hrun fuel (by simpa using hfuel)

theorem Holds.remove (h : Holds s.nodes s.queue ps processes) (x : Nat) :
    ∃ s' ps', (Holds s'.nodes s'.queue ps' (Kernel.queueRemove processes x) ∧
        Turns s.nodes s'.nodes ps ps') ∧
      ∀ fuel, processes.length < fuel → queueRemove fuel s x = .ok (some s') := by
  obtain ⟨hlinked, hmap, hcount⟩ := h
  obtain ⟨s', ps', hheld, hrun⟩ := @removeFrom_eq s processes [] ps x hlinked hmap hcount
    fun q hq => absurd hq List.not_mem_nil
  refine ⟨s', ps', hheld, fun fuel hfuel => ?_⟩
  rw [queueRemove, hlinked.forward.head_eq]
  refine hrun fuel ?_
  have hlength := congrArg List.length hmap
  rw [List.length_map, List.length_map] at hlength
  omega

theorem Queued.remove (h : Queued s processes) (x : Nat) :
    ∃ s', Queued s' (Kernel.queueRemove processes x) ∧
      ∀ fuel, processes.length < fuel → queueRemove fuel s x = .ok (some s') := by
  obtain ⟨ps, hheld⟩ := h
  obtain ⟨s', ps', hheld', hrun⟩ := Holds.remove hheld x
  exact ⟨s', ⟨ps', hheld'.1⟩, hrun⟩

theorem dequeued {node : ProcessQueueNode} (hnode : s.nodes.get p = some node)
    (hchecked : checkedInt (s.queue.count - 1) = .ok (s.queue.count - 1))
    (hhead : s.queue.head = some p) (hprev : node.prev = none)
    (hnext : ∀ q ∈ node.next, (processOf s.nodes q).isSome = true) :
    ∃ s', queueDequeue s = .ok (some node.process,
        ⟨s'.nodes.free p, { s'.queue with count := s.queue.count - 1 }⟩) ∧ Unlinked s p s' := by
  have hnextOf : nextOf s.nodes p = node.next := by rw [nextOf, hnode]; rfl
  have hprevOf : prevOf s.nodes p = none := by rw [prevOf, hnode]; exact hprev
  cases hafter : node.next with
  | none =>
    rw [hafter] at hnextOf
    refine ⟨⟨s.nodes, ⟨none, none, s.queue.count⟩⟩, ?_, ?_, ?_, rfl, ?_, ?_⟩
    · simp only [queueDequeue, hhead, nodeAt_eq hnode, hafter, bind, Except.bind, hchecked]
    all_goals
      rw [hnextOf, hprevOf]
      rfl
  | some q =>
    obtain ⟨nodes, hset, hn, hv, hx⟩ := setPrev_eq (hnext q hafter) none
    rw [hafter] at hnextOf
    refine ⟨⟨nodes, { s.queue with head := some q }⟩, ?_, ?_, ?_, hx, ?_, ?_⟩
    · simp only [queueDequeue, hhead, nodeAt_eq hnode, hafter, hset, bind, Except.bind, hchecked]
    · rw [hn, hprevOf]
      rfl
    · rw [hv, hnextOf, hprevOf]
      rfl
    all_goals
      rw [hnextOf, hprevOf]
      rfl

theorem Holds.dequeue (h : Holds s.nodes s.queue ps processes) :
    ∃ s' ps', queueDequeue s = .ok ((Kernel.queueDequeue processes).1, s') ∧
      Holds s'.nodes s'.queue ps' (Kernel.queueDequeue processes).2 ∧
      Turns s.nodes s'.nodes ps ps' := by
  have hold := h
  obtain ⟨hlinked, hmap, hcount⟩ := h
  have hhead := hlinked.forward.head_eq
  cases ps with
  | nil =>
    obtain rfl : processes = [] := List.map_eq_nil_iff.mp hmap.symm
    refine ⟨s, [], ?_, hold, .refl hold.live⟩
    rw [queueDequeue, hhead]
    rfl
  | cons p ps =>
    cases processes with
    | nil => cases hmap
    | cons x processes =>
      obtain ⟨hp, hrest⟩ := List.cons.inj hmap
      obtain ⟨node, hnode, rfl, -, -⟩ := exists_node hp
      obtain ⟨hprev, hnext⟩ := @neighbours s node [] ps p hlinked hnode
      obtain ⟨hchecked, hcount'⟩ := hcount.shorter (List.length_cons (a := node.process))
      obtain ⟨s', hrun, hunlinked⟩ := dequeued hnode hchecked hhead hprev fun q hq =>
        live_of_map hmap q (List.mem_cons_of_mem p (List.mem_of_mem_head? (hnext ▸ hq)))
      exact ⟨_, ps, hrun, @Unlinked.holds s s' processes [] ps p hunlinked hlinked hrest hcount'⟩

theorem Queued.dequeue (h : Queued s processes) :
    ∃ s', queueDequeue s = .ok ((Kernel.queueDequeue processes).1, s') ∧
      Queued s' (Kernel.queueDequeue processes).2 := by
  obtain ⟨ps, hheld⟩ := h
  obtain ⟨s', ps', hrun, hheld', -⟩ := Holds.dequeue hheld
  exact ⟨s', hrun, ps', hheld'⟩

end Removal

section Runs

variable {s : QueueState} {processes : List Nat}

def CallFits (processes : List Nat) (call : QueueCall) : Prop :=
  (listCall processes call).2.length ≤ 2147483647

theorem Queued.call (h : Queued s processes) {call : QueueCall} (hfits : CallFits processes call) :
    ∃ s', Queued s' (listCall processes call).2 ∧ ∀ fuel, processes.length < fuel →
      queueCall fuel s call = .ok (some ((listCall processes call).1, s')) := by
  cases call with
  | enqueue process allocated =>
    cases allocated with
    | false => exact ⟨s, h, fun fuel _ => rfl⟩
    | true =>
      have hroom : processes.length < 2147483647 := by
        rw [CallFits, listCall, if_pos rfl, Kernel.queueEnqueue, List.length_append] at hfits
        exact hfits
      obtain ⟨s', hrun, hqueued⟩ := h.enqueue hroom process
      exact ⟨s', hqueued, fun fuel _ => Outcome.map_eq_ok.mpr ⟨s', hrun, rfl⟩⟩
  | dequeue =>
    obtain ⟨s', hrun, hqueued⟩ := h.dequeue
    exact ⟨s', hqueued, fun fuel _ => Outcome.map_eq_ok.mpr ⟨_, hrun, rfl⟩⟩
  | remove process =>
    obtain ⟨s', hqueued, hrun⟩ := h.remove process
    exact ⟨s', hqueued, fun fuel hfuel => Outcome.map_eq_ok.mpr ⟨_, hrun fuel hfuel, rfl⟩⟩

theorem Queued.call_overflow (h : Queued s processes) {call : QueueCall}
    (hfits : ¬ CallFits processes call) (fuel : Nat) :
    queueCall fuel s call = .error .intOverflow := by
  have hle : processes.length ≤ 2147483647 := by
    obtain ⟨-, -, -, -, hle⟩ := h
    exact hle
  cases call with
  | enqueue process allocated =>
    cases allocated with
    | false => exact absurd hle hfits
    | true =>
      have hfull : ¬ processes.length < 2147483647 := by
        rw [CallFits, listCall, if_pos rfl, Kernel.queueEnqueue, List.length_append] at hfits
        exact hfits
      rw [queueCall, h.enqueue_full hfull process]
      rfl
  | dequeue =>
    refine absurd (le_trans ?_ hle) hfits
    cases processes with
    | nil => exact Nat.le_refl 0
    | cons process processes => exact Nat.le_succ _
  | remove process => exact absurd (le_trans List.length_erase_le hle) hfits

def CallsFit : List Nat → List QueueCall → Prop
  | _, [] => True
  | processes, call :: calls =>
    CallFits processes call ∧ CallsFit (listCall processes call).2 calls

theorem Queued.calls (h : Queued s processes) {calls : List QueueCall} (hfits : CallsFit processes calls) :
    ∃ s', Queued s' (listCalls processes calls).2 ∧
      Settles (fun fuel => queueCalls fuel s calls) ((listCalls processes calls).1, s') := by
  induction calls generalizing s processes with
  | nil => exact ⟨s, h, 0, fun fuel _ => rfl⟩
  | cons call calls ih =>
    obtain ⟨s₁, hqueued₁, hrun⟩ := h.call hfits.1
    obtain ⟨s', hqueued, enough, hrest⟩ := ih hqueued₁ hfits.2
    refine ⟨s', hqueued, processes.length + 1 + enough, fun fuel hfuel => ?_⟩
    simp only [queueCalls, hrun fuel (by omega), hrest fuel (by omega), bind, Except.bind]
    rfl

theorem Queued.calls_fit (h : Queued s processes) {calls : List QueueCall}
    {answers : List (Option Nat) × QueueState}
    (hrun : Settles (fun fuel => queueCalls fuel s calls) answers) : CallsFit processes calls := by
  induction calls generalizing s processes answers with
  | nil => trivial
  | cons call calls ih =>
    obtain ⟨enough, hrun⟩ := hrun
    by_cases hfits : CallFits processes call
    · obtain ⟨s₁, hqueued₁, hcall⟩ := h.call hfits
      have hlater : ∀ fuel, processes.length + 1 + enough ≤ fuel → ∃ rest,
          queueCalls fuel s₁ calls = .ok (some rest) ∧
            ((listCall processes call).1 :: rest.1, rest.2) = answers := by
        intro fuel hfuel
        have hwhole := hrun fuel (by omega)
        simp only [queueCalls, hcall fuel (by omega), bind, Except.bind] at hwhole
        obtain ⟨found, hfound, hmap⟩ := Outcome.map_eq_ok.mp hwhole
        obtain ⟨rest, rfl, hrest⟩ := Option.map_eq_some_iff.mp hmap
        exact ⟨rest, hfound, hrest⟩
      refine ⟨hfits, @ih s₁ _ hqueued₁ (answers.1.tail, answers.2)
        ⟨processes.length + 1 + enough, fun fuel hfuel => ?_⟩⟩
      obtain ⟨rest, hfound, rfl⟩ := hlater fuel hfuel
      exact hfound
    · have hwhole := hrun enough (Nat.le_refl enough)
      simp only [queueCalls, h.call_overflow hfits, bind, Except.bind] at hwhole
      cases hwhole

theorem process_queue_refines_list_iff (s : QueueState) (calls : List QueueCall) :
    (∃ s', Queued s' (listCalls [] calls).2 ∧
        Settles (fun fuel => queueCalls fuel (queueInit s) calls) ((listCalls [] calls).1, s')) ↔
      CallsFit [] calls :=
  ⟨fun ⟨_, _, hrun⟩ => (queued_init s).calls_fit hrun, (queued_init s).calls⟩

theorem length_of_fits {processes : List Nat} {n process : Nat} (hle : processes.length ≤ 2147483647)
    (h : CallsFit processes (List.replicate n (.enqueue process true))) :
    processes.length + n ≤ 2147483647 := by
  induction n generalizing processes with
  | zero => exact hle
  | succ n ih =>
    rw [List.replicate_succ] at h
    have hrest := ih h.1 h.2
    rw [listCall, if_pos rfl, Kernel.queueEnqueue, List.length_append, List.length_singleton] at hrest
    omega

theorem count_overflow : ¬ ∀ (s : QueueState) (calls : List QueueCall),
    ∃ s', Queued s' (listCalls [] calls).2 ∧
      Settles (fun fuel => queueCalls fuel (queueInit s) calls) ((listCalls [] calls).1, s') := by
  intro hall
  obtain ⟨s', -, hrun⟩ := hall ⟨Heap.empty, ⟨none, none, 0⟩⟩ (List.replicate (2 ^ 31) (.enqueue 4 true))
  have hfits := length_of_fits (Nat.zero_le _) ((queued_init _).calls_fit hrun)
  exact absurd hfits (by decide)

end Runs

end ZoraVM.Kernel.Queues

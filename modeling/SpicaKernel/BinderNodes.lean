import Mathlib.Data.List.Sort

namespace SpicaKernel.Binder
open Function
set_option autoImplicit true

/-- `struct binder_node`; `work.entry` is linked where the node stands in `Driver.works`. -/
structure BinderNode where
  proc : Option Nat
  refs : List Nat
  internalStrongRefs : Int32
  localWeakRefs : Int32
  localStrongRefs : Int32
  ptr : Nat
  cookie : Nat
  hasStrongRef : Bool
  pendingStrongRef : Bool
  hasWeakRef : Bool
  pendingWeakRef : Bool
  acceptFds : Bool

structure BinderRef where
  proc : Nat
  node : Nat
  desc : Nat
  strong : Int32
  weak : Int32
  death : Option Nat

inductive DeathWork where
  | deadBinder
  | deadBinderAndClear
  | clearDeathNotification
  deriving DecidableEq

/-- `struct binder_ref_death`; a zeroed work item has no type yet. -/
structure BinderRefDeath where
  type : Option DeathWork
  cookie : Nat

/-- A thread with its process and whether it has entered or registered as a looper. -/
structure BinderThread where
  proc : Nat
  looper : Bool

inductive Work where
  | node (n : Nat)
  | death (d : Nat)
  deriving DecidableEq

/-- The lists of work: `proc->todo`, `thread->todo` and `proc->delivered_death`. -/
inductive Queue where
  | proc (p : Nat)
  | thread (t : Nat)
  | delivered (p : Nat)
  deriving DecidableEq

inductive FreeSite where
  | decNode
  | threadRead
  | procRelease
  deriving DecidableEq

/-- The objects by the order of their allocation; a freed one is `none`. `works` is all work lists
in one, `freed` and `returned` are history: the nodes freed, as they were then, and the death
requests for which `BR_DEAD_BINDER` went to user space. -/
structure Driver where
  nextId : Nat
  procs : List Nat
  threads : Nat → Option BinderThread
  nodes : Nat → Option BinderNode
  refs : Nat → Option BinderRef
  deaths : Nat → Option BinderRefDeath
  procThreads : Nat → List Nat
  procNodes : Nat → List Nat
  refsByDesc : Nat → List Nat
  refsByNode : Nat → List Nat
  works : List (Queue × Work)
  contextMgrNode : Option Nat
  freed : List (FreeSite × BinderNode)
  returned : List Nat

def Driver.init : Driver where
  nextId := 0
  procs := []
  threads := fun _ => none
  nodes := fun _ => none
  refs := fun _ => none
  deaths := fun _ => none
  procThreads := fun _ => []
  procNodes := fun _ => []
  refsByDesc := fun _ => []
  refsByNode := fun _ => []
  works := []
  contextMgrNode := none
  freed := []
  returned := []

/-- Why the driver stops: a `BUG`, a freed object or a null pointer. -/
inductive Fault where
  | bug
  | dangling
  | nullPointer
  deriving DecidableEq

namespace Driver

def setNode (s : Driver) (n : Nat) (node : BinderNode) : Driver :=
  { s with nodes := update s.nodes n (some node) }

def modifyNode (s : Driver) (n : Nat) (f : BinderNode → BinderNode) : Driver :=
  { s with nodes := update s.nodes n ((s.nodes n).map f) }

def setRef (s : Driver) (r : Nat) (ref : BinderRef) : Driver :=
  { s with refs := update s.refs r (some ref) }

def setDeath (s : Driver) (d : Nat) (death : BinderRefDeath) : Driver :=
  { s with deaths := update s.deaths d (some death) }

/-- The opposite of `list_empty(&work->entry)`. -/
def linked (s : Driver) (w : Work) : Bool := s.works.any (fun x => x.2 = w)

def listDel (s : Driver) (w : Work) : Driver :=
  { s with works := s.works.filter (fun x => x.2 ≠ w) }

def listAddTail (s : Driver) (q : Queue) (w : Work) : Driver :=
  { s with works := s.works ++ [(q, w)] }

def listAdd (s : Driver) (q : Queue) (w : Work) : Driver :=
  { s with works := (q, w) :: s.works }

/-- `kfree(node)`, with the node out of its work list and of the tree of the process `tree`. -/
def freeNode (s : Driver) (site : FreeSite) (tree : Option Nat) (n : Nat) (node : BinderNode) :
    Driver :=
  { s.listDel (.node n) with
    nodes := update s.nodes n none
    procNodes := match tree with
      | some p => update s.procNodes p ((s.procNodes p).erase n)
      | none => s.procNodes
    freed := (site, node) :: s.freed }

end Driver

abbrev Result (α : Type) := Except Fault α

def Driver.node (s : Driver) (n : Nat) : Result BinderNode :=
  match s.nodes n with
  | some node => .ok node
  | none => .error .dangling

def Driver.ref (s : Driver) (r : Nat) : Result BinderRef :=
  match s.refs r with
  | some ref => .ok ref
  | none => .error .dangling

def EINVAL : Int := 22

def nodePtr (s : Driver) (n : Nat) : Nat := ((s.nodes n).map BinderNode.ptr).getD 0

def refDesc (s : Driver) (r : Nat) : Nat := ((s.refs r).map BinderRef.desc).getD 0

def binderGetNode (s : Driver) (p ptr : Nat) : Option Nat :=
  (s.procNodes p).find? (fun n => (s.nodes n).any (fun node => node.ptr = ptr))

/-- The node that `binder_new_node` links into the tree of its process. -/
def insertNode (s : Driver) (p ptr cookie : Nat) : Driver :=
  let n := s.nextId
  let s := { s.setNode n ⟨some p, [], 0, 0, 0, ptr, cookie, false, false, false, false, false⟩ with
    nextId := n + 1 }
  let nodes := (s.procNodes p).orderedInsert (fun a b => nodePtr s a ≤ nodePtr s b) n
  { s with procNodes := update s.procNodes p nodes }

def binderNewNode (s : Driver) (p ptr cookie : Nat) (kzalloc : Bool) : Option Nat × Driver :=
  if (binderGetNode s p ptr).isSome ∨ kzalloc = false then (none, s)
  else (some s.nextId, insertNode s p ptr cookie)

def binderIncNode (s : Driver) (n : Nat) (strong internal : Bool) (targetList : Option Queue) :
    Result (Int × Driver) := do
  let node ← s.node n
  if strong then
    if internal = true ∧ targetList = none ∧ node.internalStrongRefs = 0 ∧
        ¬ (s.contextMgrNode = some n ∧ node.hasStrongRef = true) then
      return (-EINVAL, s)
    let node := if internal
      then { node with internalStrongRefs := node.internalStrongRefs + 1 }
      else { node with localStrongRefs := node.localStrongRefs + 1 }
    let s := s.setNode n node
    match targetList with
    | some q =>
      if node.hasStrongRef = false then return (0, (s.listDel (.node n)).listAddTail q (.node n))
      else return (0, s)
    | none => return (0, s)
  else
    let node := if internal then node else { node with localWeakRefs := node.localWeakRefs + 1 }
    let s := s.setNode n node
    if node.hasWeakRef = false ∧ s.linked (.node n) = false then
      match targetList with
      | none => return (-EINVAL, s)
      | some q => return (0, s.listAddTail q (.node n))
    else return (0, s)

/-- The end of `binder_dec_node`, for a node whose count dropped to zero. -/
def settleNode (s : Driver) (n : Nat) (node : BinderNode) : Driver :=
  match node.proc, node.hasStrongRef || node.hasWeakRef with
  | some p, true =>
    if s.linked (.node n) then s.setNode n node
    else (s.setNode n node).listAddTail (.proc p) (.node n)
  | _, _ =>
    if node.refs = [] ∧ node.localStrongRefs = 0 ∧ node.localWeakRefs = 0 then
      s.freeNode .decNode node.proc n node
    else s.setNode n node

def binderDecNode (s : Driver) (n : Nat) (strong internal : Bool) : Result Driver := do
  let node ← s.node n
  if strong then
    let node := if internal
      then { node with internalStrongRefs := node.internalStrongRefs - 1 }
      else { node with localStrongRefs := node.localStrongRefs - 1 }
    if node.localStrongRefs ≠ 0 ∨ node.internalStrongRefs ≠ 0 then return s.setNode n node
    else return settleNode s n node
  else
    let node := if internal then node else { node with localWeakRefs := node.localWeakRefs - 1 }
    if node.localWeakRefs ≠ 0 ∨ node.refs ≠ [] then return s.setNode n node
    else return settleNode s n node

def binderGetRef (s : Driver) (p desc : Nat) : Option Nat :=
  (s.refsByDesc p).find? (fun r => (s.refs r).any (fun ref => ref.desc = desc))

/-- The loop that looks for a free descriptor among the descriptors in use. -/
def freeDesc (desc : Nat) : List Nat → Nat
  | [] => desc
  | d :: ds => if d > desc then desc else freeDesc (d + 1) ds

/-- The descriptor of a new reference; 0 is for the context manager only. -/
def newDesc (s : Driver) (p n : Nat) : Nat :=
  freeDesc (if s.contextMgrNode = some n then 0 else 1) ((s.refsByDesc p).map (refDesc s))

/-- The reference that `binder_get_ref_for_node` links into both trees and the list of its node. -/
def insertRef (s : Driver) (p n desc : Nat) (node : BinderNode) : Driver :=
  let r := s.nextId
  let s := { s.setRef r ⟨p, n, desc, 0, 0, none⟩ with nextId := r + 1 }
  let byDesc := (s.refsByDesc p).orderedInsert (fun a b => refDesc s a ≤ refDesc s b) r
  { s.setNode n { node with refs := r :: node.refs } with
    refsByNode := update s.refsByNode p (r :: s.refsByNode p)
    refsByDesc := update s.refsByDesc p byDesc }

def binderGetRefForNode (s : Driver) (p n : Nat) (kzalloc : Bool) : Result (Option Nat × Driver) :=
  match (s.refsByNode p).find? (fun r => (s.refs r).any (fun ref => ref.node = n)) with
  | some r => .ok (some r, s)
  | none => do
    if kzalloc = false then return (none, s)
    let node ← s.node n
    let desc := newDesc s p n
    if desc ∈ (s.refsByDesc p).map (refDesc s) then throw .bug
    else return (some s.nextId, insertRef s p n desc node)

def binderDeleteRef (s : Driver) (r : Nat) : Result Driver := do
  let ref ← s.ref r
  let s := { s with
    refsByDesc := update s.refsByDesc ref.proc ((s.refsByDesc ref.proc).erase r)
    refsByNode := update s.refsByNode ref.proc ((s.refsByNode ref.proc).erase r) }
  let s ← (if ref.strong ≠ 0 then binderDecNode s ref.node true true else .ok s)
  let node ← s.node ref.node
  let s ← binderDecNode (s.setNode ref.node { node with refs := node.refs.erase r }) ref.node
    false true
  let s := match ref.death with
    | some d => { s.listDel (.death d) with deaths := update s.deaths d none }
    | none => s
  return { s with refs := update s.refs r none }

def binderIncRef (s : Driver) (r : Nat) (strong : Bool) (targetList : Option Queue) :
    Result (Int × Driver) := do
  let ref ← s.ref r
  let count := if strong then ref.strong else ref.weak
  let (ret, s) ← (if count = 0 then binderIncNode s ref.node strong true targetList
    else .ok (0, s))
  if ret ≠ 0 then return (ret, s)
  return (0, s.setRef r (if strong then { ref with strong := ref.strong + 1 }
    else { ref with weak := ref.weak + 1 }))

def binderDecRef (s : Driver) (r : Nat) (strong : Bool) : Result (Int × Driver) := do
  let ref ← s.ref r
  let count := if strong then ref.strong else ref.weak
  if count = 0 then return (-EINVAL, s)
  let ref := if strong then { ref with strong := ref.strong - 1 }
    else { ref with weak := ref.weak - 1 }
  let s := s.setRef r ref
  let s ← (if strong = true ∧ ref.strong = 0 then binderDecNode s ref.node true true else .ok s)
  if ref.strong = 0 ∧ ref.weak = 0 then
    let s ← binderDeleteRef s r
    return (0, s)
  return (0, s)

/-- What an object of a transaction becomes in the process that receives it. -/
inductive Translated where
  | binder (ptr cookie : Nat)
  | handle (desc : Nat)
  deriving DecidableEq

/-- The node of an object that the sender owns, made on its first use. -/
def senderNode (s : Driver) (p ptr cookie : Nat) (acceptFds kzalloc : Bool) : Option Nat × Driver :=
  match binderGetNode s p ptr with
  | some n => (some n, s)
  | none => match binderNewNode s p ptr cookie kzalloc with
    | (none, s) => (none, s)
    | (some n, s) => (some n, s.modifyNode n fun node => { node with acceptFds := acceptFds })

/-- The object loop of `binder_transaction` for a binder; `none` is an object that is refused. -/
def translateBinder (s : Driver) (p t target ptr cookie : Nat) (strong acceptFds : Bool)
    (kzallocNode kzallocRef : Bool) : Result (Option Translated × Driver) :=
  match senderNode s p ptr cookie acceptFds kzallocNode with
  | (none, s) => .ok (none, s)
  | (some n, s) => do
    let node ← s.node n
    if cookie ≠ node.cookie then return (none, s)
    let (r, s) ← binderGetRefForNode s target n kzallocRef
    match r with
    | none => return (none, s)
    | some r =>
      let (_, s) ← binderIncRef s r strong (some (.thread t))
      return (some (.handle (refDesc s r)), s)

/-- The object loop of `binder_transaction` for a handle. -/
def translateHandle (s : Driver) (p target handle : Nat) (strong kzallocRef : Bool) :
    Result (Option Translated × Driver) :=
  match binderGetRef s p handle with
  | none => .ok (none, s)
  | some r => do
    let ref ← s.ref r
    let node ← s.node ref.node
    if node.proc = some target then
      let (_, s) ← binderIncNode s ref.node strong false none
      return (some (.binder node.ptr node.cookie), s)
    else
      let (r', s) ← binderGetRefForNode s target ref.node kzallocRef
      match r' with
      | none => return (none, s)
      | some r' =>
        let (_, s) ← binderIncRef s r' strong none
        return (some (.handle (refDesc s r')), s)

/-- The cases of `binder_transaction_buffer_release`. -/
def releaseObject (s : Driver) (p : Nat) (strong : Bool) : Translated → Result Driver
  | .binder ptr _ => match binderGetNode s p ptr with
    | none => .ok s
    | some n => binderDecNode s n strong false
  | .handle desc => match binderGetRef s p desc with
    | none => .ok s
    | some r => (binderDecRef s r strong).map Prod.snd

/-- `BC_INCREFS` and `BC_ACQUIRE`. -/
def incRefs (s : Driver) (p target : Nat) (strong kzalloc : Bool) : Result Driver :=
  match target, s.contextMgrNode with
  | 0, some n => do
    let (r, s) ← binderGetRefForNode s p n kzalloc
    match r with
    | none => throw .nullPointer
    | some r => (binderIncRef s r strong none).map Prod.snd
  | _, _ => match binderGetRef s p target with
    | none => .ok s
    | some r => (binderIncRef s r strong none).map Prod.snd

/-- `BC_RELEASE` and `BC_DECREFS`. -/
def decRefs (s : Driver) (p target : Nat) (strong : Bool) : Result Driver :=
  match binderGetRef s p target with
  | none => .ok s
  | some r => (binderDecRef s r strong).map Prod.snd

/-- `BC_ACQUIRE_DONE` and `BC_INCREFS_DONE`. -/
def incRefsDone (s : Driver) (p ptr cookie : Nat) (strong : Bool) : Result Driver :=
  match binderGetNode s p ptr with
  | none => .ok s
  | some n => do
    let node ← s.node n
    if cookie ≠ node.cookie then return s
    if strong then
      if node.pendingStrongRef = false then return s
      binderDecNode (s.setNode n { node with pendingStrongRef := false }) n true false
    else
      if node.pendingWeakRef = false then return s
      binderDecNode (s.setNode n { node with pendingWeakRef := false }) n false false

/-- The node that a transaction to `handle` is for. -/
def targetNode (s : Driver) (p handle : Nat) : Result (Option Nat) :=
  if handle ≠ 0 then match binderGetRef s p handle with
    | none => .ok none
    | some r => do
      let ref ← s.ref r
      return some ref.node
  else .ok s.contextMgrNode

/-- A transaction holds a strong reference to its target node as long as its buffer exists. -/
def holdTarget (s : Driver) (p handle : Nat) : Result Driver := do
  match ← targetNode s p handle with
  | none => return s
  | some n =>
    let node ← s.node n
    if node.proc = none then return s
    let (_, s) ← binderIncNode s n true false none
    return s

def deathQueue (s : Driver) (p t : Nat) : Queue :=
  if (s.threads t).any BinderThread.looper then .thread t else .proc p

def requestDeath (s : Driver) (p t target cookie : Nat) (kzalloc : Bool) : Result Driver :=
  match binderGetRef s p target with
  | none => .ok s
  | some r => do
    let ref ← s.ref r
    if ref.death ≠ none ∨ kzalloc = false then return s
    let d := s.nextId
    let s := { (s.setRef r { ref with death := some d }) with nextId := d + 1 }
    let node ← s.node ref.node
    if node.proc = none then
      return (s.setDeath d ⟨some .deadBinder, cookie⟩).listAddTail (deathQueue s p t) (.death d)
    return s.setDeath d ⟨none, cookie⟩

def clearDeath (s : Driver) (p t target cookie : Nat) : Result Driver :=
  match binderGetRef s p target with
  | none => .ok s
  | some r => do
    let ref ← s.ref r
    match ref.death with
    | none => return s
    | some d => match s.deaths d with
      | none => throw .dangling
      | some death =>
        if death.cookie ≠ cookie then return s
        let s := s.setRef r { ref with death := none }
        if s.linked (.death d) = false then
          return (s.setDeath d { death with type := some .clearDeathNotification }).listAddTail
            (deathQueue s p t) (.death d)
        if death.type ≠ some .deadBinder then throw .bug
        return s.setDeath d { death with type := some .deadBinderAndClear }

/-- The search of `BC_DEAD_BINDER_DONE` through `proc->delivered_death`. -/
def findDelivered (s : Driver) (p cookie : Nat) : Option Nat :=
  s.works.findSome? fun
    | (q, .death d) => if q = .delivered p ∧ (s.deaths d).any (fun death => death.cookie = cookie)
      then some d else none
    | (_, .node _) => none

def deadBinderDone (s : Driver) (p t cookie : Nat) : Result Driver :=
  match findDelivered s p cookie with
  | none => .ok s
  | some d => match s.deaths d with
    | none => .error .dangling
    | some death =>
      let s := s.listDel (.death d)
      if death.type = some .deadBinderAndClear then
        .ok ((s.setDeath d { death with type := some .clearDeathNotification }).listAddTail
          (deathQueue s p t) (.death d))
      else .ok s

/-- One round of the case `BINDER_WORK_NODE` of `binder_thread_read`. -/
def readNodeWork (s : Driver) (p n : Nat) : Result Driver := do
  let node ← s.node n
  let strong := decide (node.internalStrongRefs ≠ 0 ∨ node.localStrongRefs ≠ 0)
  let weak := decide (node.refs ≠ [] ∨ node.localWeakRefs ≠ 0) || strong
  if weak && !node.hasWeakRef then
    return s.setNode n { node with
      hasWeakRef := true, pendingWeakRef := true, localWeakRefs := node.localWeakRefs + 1 }
  else if strong && !node.hasStrongRef then
    return s.setNode n { node with
      hasStrongRef := true, pendingStrongRef := true
      localStrongRefs := node.localStrongRefs + 1 }
  else if !strong && node.hasStrongRef then
    return s.setNode n { node with hasStrongRef := false }
  else if !weak && node.hasWeakRef then
    return s.setNode n { node with hasWeakRef := false }
  else if !weak && !strong then return s.freeNode .threadRead (some p) n node
  else return s.listDel (.node n)

/-- The case of `binder_thread_read` for the three kinds of death work. -/
def readDeathWork (s : Driver) (p d : Nat) : Result Driver :=
  match s.deaths d with
  | none => .error .dangling
  | some death =>
    if death.type = some .clearDeathNotification then
      .ok { s.listDel (.death d) with deaths := update s.deaths d none }
    else
      .ok { (s.listDel (.death d)).listAdd (.delivered p) (.death d) with
        returned := d :: s.returned }

/-- `binder_thread_read` of any node or death item; those of transactions are not modelled here. -/
def readWork (s : Driver) (p t : Nat) (w : Work) : Result Driver :=
  if (Queue.thread t, w) ∈ s.works ∨ (Queue.proc p, w) ∈ s.works then
    match w with
    | .node n => readNodeWork s p n
    | .death d => readDeathWork s p d
  else .ok s

/-- `binder_release_work` of a list. -/
def releaseWork (s : Driver) (q : Queue) : Driver :=
  { s with works := s.works.filter (fun x => x.1 ≠ q) }

def binderFreeThread (p : Nat) (s : Driver) (t : Nat) : Driver :=
  { releaseWork s (.thread t) with
    threads := update s.threads t none
    procThreads := update s.procThreads p ((s.procThreads p).erase t) }

/-- Tells the owner of a reference that its node has died. -/
def notifyDeath (s : Driver) (r : Nat) : Result Driver := do
  let ref ← s.ref r
  match ref.death with
  | none => return s
  | some d => match s.deaths d with
    | none => throw .dangling
    | some death =>
      if s.linked (.death d) then throw .bug
      return (s.setDeath d { death with type := some .deadBinder }).listAddTail
        (.proc ref.proc) (.death d)

/-- A node that outlives its process. -/
def buryNode (p : Nat) (s : Driver) (n : Nat) (node : BinderNode) : Driver :=
  { (s.listDel (.node n)).setNode n
      { node with proc := none, localStrongRefs := 0, localWeakRefs := 0 } with
    procNodes := update s.procNodes p ((s.procNodes p).erase n) }

/-- The loop body of `binder_deferred_release` for a node of the process. -/
def releaseNode (p : Nat) (s : Driver) (n : Nat) : Result Driver := do
  let node ← s.node n
  if node.refs = [] then return s.freeNode .procRelease (some p) n node
  else node.refs.foldlM notifyDeath (buryNode p s n node)

def unlistProc (s : Driver) (p : Nat) : Driver :=
  { s with
    procs := s.procs.filter (· ≠ p)
    contextMgrNode := match s.contextMgrNode with
      | some n => if (s.nodes n).any (fun node : BinderNode => node.proc = some p) then none
        else some n
      | none => none }

def binderDeferredRelease (s : Driver) (p : Nat) : Result Driver := do
  let s := unlistProc s p
  let s := (s.procThreads p).foldl (binderFreeThread p) s
  let s ← (s.procNodes p).foldlM (releaseNode p) s
  let s ← (s.refsByDesc p).foldlM binderDeleteRef s
  return releaseWork s (.proc p)

def binderOpen (s : Driver) : Driver :=
  { s with procs := s.nextId :: s.procs, nextId := s.nextId + 1 }

/-- `binder_get_thread` for a thread that the driver does not know yet. -/
def binderGetThread (s : Driver) (p : Nat) : Driver :=
  { s with
    threads := update s.threads s.nextId (some ⟨p, false⟩)
    procThreads := update s.procThreads p (s.nextId :: s.procThreads p)
    nextId := s.nextId + 1 }

/-- `BINDER_SET_CONTEXT_MGR`, past the check of the user. -/
def setContextMgr (s : Driver) (p : Nat) (kzalloc : Bool) : Driver :=
  if s.contextMgrNode ≠ none then s
  else match binderNewNode s p 0 0 kzalloc with
    | (none, s) => s
    | (some n, s) =>
      let s := s.modifyNode n fun node => { node with
        localWeakRefs := node.localWeakRefs + 1, localStrongRefs := node.localStrongRefs + 1
        hasStrongRef := true, hasWeakRef := true }
      { s with contextMgrNode := some n }

/-- What a thread makes the driver do with nodes, references and death requests. -/
inductive DriverOp where
  | binderOpen
  | getThread (p : Nat)
  | enterLooper (p t : Nat)
  | setContextMgr (p t : Nat) (kzalloc : Bool)
  | incRefs (p t target : Nat) (strong kzalloc : Bool)
  | decRefs (p t target : Nat) (strong : Bool)
  | incRefsDone (p t ptr cookie : Nat) (strong : Bool)
  | translateBinder (p t target ptr cookie : Nat) (strong acceptFds kzallocNode kzallocRef : Bool)
  | translateHandle (p t target handle : Nat) (strong kzallocRef : Bool)
  | releaseObject (p t : Nat) (strong : Bool) (object : Translated)
  | holdTarget (p t handle : Nat)
  | dropTarget (p t n : Nat)
  | requestDeath (p t target cookie : Nat) (kzalloc : Bool)
  | clearDeath (p t target cookie : Nat)
  | deadBinderDone (p t cookie : Nat)
  | readWork (p t : Nat) (w : Work)
  | threadExit (p t : Nat)
  | release (p : Nat)

/-- The thread belongs to the process, and both are alive. -/
def Driver.calls (s : Driver) (p t : Nat) : Bool :=
  decide (p ∈ s.procs) && (s.threads t).any (fun thread => thread.proc = p)

def driverStep (s : Driver) : DriverOp → Result Driver
  | .binderOpen => .ok (binderOpen s)
  | .getThread p => if p ∈ s.procs then .ok (binderGetThread s p) else .ok s
  | .enterLooper p t => if s.calls p t
    then .ok { s with threads := update s.threads t (some ⟨p, true⟩) } else .ok s
  | .setContextMgr p t kzalloc => if s.calls p t then .ok (setContextMgr s p kzalloc) else .ok s
  | .incRefs p t target strong kzalloc => if s.calls p t then incRefs s p target strong kzalloc
    else .ok s
  | .decRefs p t target strong => if s.calls p t then decRefs s p target strong else .ok s
  | .incRefsDone p t ptr cookie strong => if s.calls p t then incRefsDone s p ptr cookie strong
    else .ok s
  | .translateBinder p t target ptr cookie strong acceptFds kzallocNode kzallocRef =>
    if s.calls p t && decide (target ∈ s.procs) then
      (translateBinder s p t target ptr cookie strong acceptFds kzallocNode kzallocRef).map Prod.snd
    else .ok s
  | .translateHandle p t target handle strong kzallocRef =>
    if s.calls p t && decide (target ∈ s.procs) then
      (translateHandle s p target handle strong kzallocRef).map Prod.snd
    else .ok s
  | .releaseObject p t strong object => if s.calls p t then releaseObject s p strong object
    else .ok s
  | .holdTarget p t handle => if s.calls p t then holdTarget s p handle else .ok s
  | .dropTarget p t n => if s.calls p t then binderDecNode s n true false else .ok s
  | .requestDeath p t target cookie kzalloc =>
    if s.calls p t then requestDeath s p t target cookie kzalloc else .ok s
  | .clearDeath p t target cookie => if s.calls p t then clearDeath s p t target cookie else .ok s
  | .deadBinderDone p t cookie => if s.calls p t then deadBinderDone s p t cookie else .ok s
  | .readWork p t w => if s.calls p t then readWork s p t w else .ok s
  | .threadExit p t => if s.calls p t then .ok (binderFreeThread p s t) else .ok s
  | .release p => if p ∈ s.procs then binderDeferredRelease s p else .ok s

end SpicaKernel.Binder

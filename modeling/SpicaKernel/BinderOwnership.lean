import SpicaKernel.BinderReferences

namespace SpicaKernel.Binder
open Function List Option
set_option autoImplicit true

def Driver.Todo (s : Driver) (p : Nat) (q : Queue) : Prop :=
  q = .proc p ∨ ∃ t thread, q = .thread t ∧ s.threads t = some thread ∧ thread.proc = p

def BinderNode.place (node : BinderNode) : Option Nat × Nat := (node.proc, node.ptr)

/-- A node is in the tree of its process by its address, and its item in lists of that process. -/
structure NodesOk (s : Driver) : Prop where
  listed : ∀ p n, n ∈ s.procNodes p ↔ ∃ node, s.nodes n = some node ∧ node.proc = some p
  nodup : ∀ p, (s.procNodes p).Nodup
  ptrs : ∀ n node n' node' p, s.nodes n = some node → s.nodes n' = some node' →
    node.proc = some p → node'.proc = some p → node.ptr = node'.ptr → n = n'
  works : ∀ q n, (q, .node n) ∈ s.works →
    ∃ node p, s.nodes n = some node ∧ node.proc = some p ∧ s.Todo p q
  thread : ∀ p t, t ∈ s.procThreads p →
    t < s.nextId ∧ ∀ thread, s.threads t = some thread → thread.proc = p
  freshThread : ∀ t, s.nextId ≤ t → s.threads t = none

theorem Driver.Todo.unique {s : Driver} (h : s.Todo p q) (h' : s.Todo p' q) : p = p' := by
  obtain rfl | ⟨t, thread, rfl, hthread, hproc⟩ := h
  · obtain h' | ⟨t, thread, h', -⟩ := h'
    · exact Queue.proc.inj h'
    · cases h'
  · obtain h' | ⟨t', thread', h', hthread', hproc'⟩ := h'
    · cases h'
    · cases h'
      rw [hthread, some.injEq] at hthread'
      rw [← hproc, hthread', hproc']

structure NodesFrame (s s' : Driver) : Prop where
  nodes : ∀ n, (s'.nodes n).map BinderNode.place = (s.nodes n).map BinderNode.place
  procNodes : s'.procNodes = s.procNodes
  works : ∀ q n, (q, .node n) ∈ s'.works → (q, .node n) ∈ s.works ∨
    ∃ node p, s.nodes n = some node ∧ node.proc = some p ∧ s.Todo p q
  threads : s'.threads = s.threads
  procThreads : s'.procThreads = s.procThreads
  nextId : s.nextId ≤ s'.nextId

theorem NodesFrame.old_node (hf : NodesFrame s s') (hn : s'.nodes n = some node') :
    ∃ node, s.nodes n = some node ∧ node'.proc = node.proc ∧ node'.ptr = node.ptr := by
  have hplace := hf.nodes n
  rw [hn] at hplace
  obtain ⟨node, hn, hplace⟩ := map_eq_some_iff.mp hplace.symm
  exact ⟨node, hn, (congrArg Prod.fst hplace).symm, (congrArg Prod.snd hplace).symm⟩

theorem NodesFrame.new_node (hf : NodesFrame s s') (hn : s.nodes n = some node) :
    ∃ node', s'.nodes n = some node' ∧ node'.proc = node.proc := by
  have hplace := hf.nodes n
  rw [hn] at hplace
  obtain ⟨node', hn', hplace⟩ := map_eq_some_iff.mp hplace
  exact ⟨node', hn', congrArg Prod.fst hplace⟩

theorem NodesOk.frame (h : NodesOk s) (hf : NodesFrame s s') : NodesOk s' where
  listed p n := by
    rw [hf.procNodes, h.listed p n]
    constructor
    · rintro ⟨node, hn, hp⟩
      obtain ⟨node', hn', hproc⟩ := hf.new_node hn
      exact ⟨node', hn', hproc.trans hp⟩
    · rintro ⟨node', hn', hp⟩
      obtain ⟨node, hn, hproc, -⟩ := hf.old_node hn'
      exact ⟨node, hn, hproc.symm.trans hp⟩
  nodup p := hf.procNodes ▸ h.nodup p
  ptrs n node n' node' p hn hn' hp hp' hptr := by
    obtain ⟨node₁, hn, hproc, hptr₁⟩ := hf.old_node hn
    obtain ⟨node₂, hn', hproc', hptr₂⟩ := hf.old_node hn'
    exact h.ptrs n node₁ n' node₂ p hn hn' (hproc ▸ hp) (hproc' ▸ hp')
      (by rw [← hptr₁, hptr, hptr₂])
  works q n hq := by
    have hold : ∃ node p, s.nodes n = some node ∧ node.proc = some p ∧ s.Todo p q :=
      (hf.works q n hq).elim (h.works q n) id
    obtain ⟨node, p, hn, hp, htodo⟩ := hold
    obtain ⟨node', hn', hproc⟩ := hf.new_node hn
    refine ⟨node', p, hn', hproc.trans hp, ?_⟩
    rwa [Driver.Todo, hf.threads]
  thread p t ht := by
    rw [hf.procThreads] at ht
    rw [hf.threads]
    exact ⟨(h.thread p t ht).1.trans_le hf.nextId, (h.thread p t ht).2⟩
  freshThread t ht := hf.threads ▸ h.freshThread t (hf.nextId.trans ht)

namespace NodesFrame

variable {s s' : Driver}

theorem touch {works : List (Queue × Work)} (hn : s.nodes n = some node)
    (hplace : node'.place = node.place)
    (hitems : ∀ x ∈ works,
      x ∈ s.works ∨ ∃ p q, node.proc = some p ∧ s.Todo p q ∧ x = (q, .node n)) :
    NodesFrame s (s.touch n node' works) where
  nodes m := by
    by_cases heq : m = n
    · simp [heq, Driver.touch, hn, hplace]
    · simp [Driver.touch, update_of_ne heq]
  procNodes := rfl
  works q m hq := by
    obtain hq | ⟨p, q', hp, htodo, heq⟩ := hitems _ hq
    · exact .inl hq
    · cases heq
      exact .inr ⟨node, p, hn, hp, htodo⟩
  threads := rfl
  procThreads := rfl
  nextId := le_rfl

theorem rest (hnodes : s'.nodes = s.nodes) (hprocNodes : s'.procNodes = s.procNodes)
    (hworks : ∀ q n, (q, .node n) ∈ s'.works → (q, .node n) ∈ s.works)
    (hthreads : s'.threads = s.threads) (hprocThreads : s'.procThreads = s.procThreads)
    (hnext : s.nextId ≤ s'.nextId) : NodesFrame s s' where
  nodes _ := by rw [hnodes]
  procNodes := hprocNodes
  works q n hq := .inl (hworks q n hq)
  threads := hthreads
  procThreads := hprocThreads
  nextId := hnext

end NodesFrame

namespace NodesOk

variable {s s' : Driver}

theorem setNode (h : NodesOk s) (hn : s.nodes n = some node) (hplace : node'.place = node.place) :
    NodesOk (s.setNode n node') :=
  h.frame (.touch hn hplace fun _ hx => .inl hx)

theorem dropNode (h : NodesOk s) (tree : Option Nat) (hn : s.nodes n = some node)
    (hnodes : s'.nodes = update s.nodes n left)
    (hprocNodes : s'.procNodes = match tree with
      | some p => update s.procNodes p ((s.procNodes p).erase n)
      | none => s.procNodes)
    (hleft : ∀ node', left = some node' → node'.proc = none) (htree : node.proc = tree)
    (hworks : ∀ q m, (q, .node m) ∈ s'.works → m ≠ n ∧ (q, .node m) ∈ s.works)
    (hthreads : s'.threads = s.threads) (hprocThreads : s'.procThreads = s.procThreads)
    (hnext : s'.nextId = s.nextId) : NodesOk s' := by
  have hold : ∀ {m node' p}, s'.nodes m = some node' → node'.proc = some p →
      m ≠ n ∧ s.nodes m = some node' := by
    intro m node' p hm hp
    rw [hnodes] at hm
    by_cases heq : m = n
    · rw [heq, update_self] at hm
      rw [hleft node' hm] at hp
      cases hp
    · exact ⟨heq, by rwa [update_of_ne heq] at hm⟩
  have hmem : ∀ p m, m ∈ s'.procNodes p ↔ m ≠ n ∧ m ∈ s.procNodes p := by
    intro p m
    have hrest : node.proc ≠ some p → (m ∈ s.procNodes p ↔ m ≠ n ∧ m ∈ s.procNodes p) := by
      intro hp
      refine ⟨fun hm => ⟨?_, hm⟩, And.right⟩
      rintro rfl
      obtain ⟨node', hn', hp'⟩ := (h.listed p m).mp hm
      rw [hn, some.injEq] at hn'
      exact hp (hn' ▸ hp')
    rw [hprocNodes, ← htree]
    cases hproc : node.proc with
    | none => exact hrest (by simp [hproc])
    | some p' =>
      by_cases hp : p = p'
      · subst hp
        simp only [update_self]
        exact (h.nodup p).mem_erase_iff
      · simp only [update_of_ne hp]
        exact hrest (by simp [hproc, Ne.symm hp])
  constructor
  case listed =>
    intro p m
    rw [hmem, h.listed p m]
    constructor
    · rintro ⟨hne, node', hm, hp⟩
      exact ⟨node', by rw [hnodes, update_of_ne hne, hm], hp⟩
    · rintro ⟨node', hm, hp⟩
      exact ⟨(hold hm hp).1, node', (hold hm hp).2, hp⟩
  case nodup =>
    intro p
    rw [hprocNodes]
    cases tree with
    | none => exact h.nodup p
    | some p' =>
      by_cases hp : p = p'
      · subst hp
        simp only [update_self]
        exact (h.nodup p).erase n
      · simp only [update_of_ne hp]
        exact h.nodup p
  case ptrs =>
    intro m node₁ m' node₂ p hm hm' hp hp'
    exact h.ptrs m node₁ m' node₂ p (hold hm hp).2 (hold hm' hp').2 hp hp'
  case works =>
    intro q m hq
    obtain ⟨hne, hq⟩ := hworks q m hq
    obtain ⟨node', p, hm, hp, htodo⟩ := h.works q m hq
    refine ⟨node', p, by rw [hnodes, update_of_ne hne, hm], hp, ?_⟩
    rwa [Driver.Todo, hthreads]
  case thread =>
    intro p t ht
    rw [hprocThreads] at ht
    rw [hthreads, hnext]
    exact h.thread p t ht
  case freshThread =>
    rw [hthreads, hnext]
    exact h.freshThread

theorem mem_listDel_node (hq : (q, .node m) ∈ (s.listDel (.node n)).works) :
    m ≠ n ∧ (q, .node m) ∈ s.works := by
  obtain ⟨hq, hne⟩ := mem_filter.mp hq
  exact ⟨by simpa using hne, hq⟩

@[simp] theorem count_place (node : BinderNode) :
    (node.count strong internal k).place = node.place := by
  cases strong <;> cases internal <;> rfl

theorem incNode (h : NodesOk s) (he : binderIncNode s n strong internal q = .ok (ret, s'))
    (hq : ∀ q', q = some q' → ∀ node, s.nodes n = some node →
      ∃ p, node.proc = some p ∧ s.Todo p q') : NodesOk s' := by
  obtain ⟨node, works, hn, -, hitems, -, rfl⟩ := binderIncNode_ok he
  refine h.frame (.touch hn ?_ ?_)
  · split <;> simp
  · intro x hx
    obtain hx | ⟨q', hq', rfl⟩ := hitems x hx
    · exact .inl hx
    · obtain ⟨p, hp, htodo⟩ := hq q' hq' node hn
      exact .inr ⟨p, q', hp, htodo, rfl⟩

theorem items_dec {works : List (Queue × Work)} {node : BinderNode}
    (hitems : ToOwner node.proc n s.works works) :
    ∀ x ∈ works, x ∈ s.works ∨ ∃ p q, node.proc = some p ∧ s.Todo p q ∧ x = (q, .node n) := by
  intro x hx
  obtain hx | ⟨p, hp, rfl⟩ := hitems x hx
  · exact .inl hx
  · exact .inr ⟨p, .proc p, hp, .inl rfl, rfl⟩

section
variable (h : NodesOk s)
include h

theorem freeNode (hn : s.nodes n = some node) (htree : node.proc = tree) :
    NodesOk (s.freeNode site tree n node') := by
  exact h.dropNode tree hn rfl rfl nofun htree (fun _ _ hq => mem_listDel_node hq) rfl rfl rfl

theorem decNode (he : binderDecNode s n strong internal = .ok s') : NodesOk s' := by
  obtain ⟨node, hn, ⟨works, -, hitems, rfl⟩ | ⟨-, -, -, -, rfl⟩⟩ := binderDecNode_ok he
  · exact h.frame (.touch hn (by simp) (items_dec hitems))
  · exact h.freeNode hn rfl

theorem refsOnly (hnodes : s'.nodes = s.nodes)
    (hprocNodes : s'.procNodes = s.procNodes) (hworks : s'.works = s.works)
    (hthreads : s'.threads = s.threads) (hprocThreads : s'.procThreads = s.procThreads)
    (hnext : s.nextId ≤ s'.nextId) : NodesOk s' :=
  h.frame (.rest hnodes hprocNodes (fun _ _ hq => hworks ▸ hq) hthreads hprocThreads hnext)

theorem incRef (he : binderIncRef s r strong q = .ok (ret, s'))
    (hq : ∀ q', q = some q' → ∀ ref node, s.refs r = some ref → s.nodes ref.node = some node →
      ∃ p, node.proc = some p ∧ s.Todo p q') : NodesOk s' := by
  obtain ⟨ref, hr, ⟨-, rfl⟩ | ⟨-, -, rfl⟩ | ⟨-, -, node, works, hn, -, hitems, rfl⟩⟩ :=
    binderIncRef_ok he
  · exact h
  · exact h.refsOnly rfl rfl rfl rfl rfl le_rfl
  · have htouch : NodesOk (s.touch ref.node (node.count strong true 1) works) := by
      refine h.frame (.touch hn (by simp) ?_)
      intro x hx
      obtain hx | ⟨q', hq', rfl⟩ := hitems x hx
      · exact .inl hx
      · obtain ⟨p, hp, htodo⟩ := hq q' hq' ref node hr hn
        exact .inr ⟨p, q', hp, htodo, rfl⟩
    exact htouch.refsOnly rfl rfl rfl rfl rfl le_rfl

theorem deleteRef (ha : Accounts room s) (he : binderDeleteRef s r = .ok s') :
    NodesOk s' := by
  obtain ⟨ref, href, -⟩ := bind_eq_ok.mp he
  have hr := ref_eq_ok.mp href
  obtain ⟨node, hn, hmem⟩ := ha.node_of_ref hr
  have hdrop : NodesOk (s.dropRef r ref) := h.refsOnly rfl rfl rfl rfl rfl le_rfl
  obtain ⟨works, -, hitems, rfl | ⟨-, -, -, -, hgone, rfl⟩⟩ := binderDeleteRef_ok he hr hn hmem
  · exact hdrop.frame (.touch hn rfl (items_dec hitems))
  · refine hdrop.dropNode node.proc hn rfl rfl nofun rfl ?_ rfl rfl rfl
    intro q m hq
    obtain hq' | ⟨p, -, heq⟩ := hitems _ hq
    · exact ⟨fun heq => hgone q (heq ▸ hq), hq'⟩
    · cases heq
      exact absurd hq (hgone _)

theorem decRef (ha : Accounts room s) (he : binderDecRef s r strong = .ok (ret, s')) :
    NodesOk s' := by
  obtain ⟨ref, href, -⟩ := bind_eq_ok.mp he
  have hr := ref_eq_ok.mp href
  obtain ⟨node, hn, hmem⟩ := ha.node_of_ref hr
  obtain ⟨-, -, rfl⟩ | ⟨hpos, -, works, -, hitems, hdone⟩ := binderDecRef_ok he hr hn hmem
  · exact h
  · have hplace : (node.afterDec ref strong).place = node.place := by
      unfold BinderNode.afterDec
      split <;> simp
    have htouch : NodesOk (s.touch ref.node (node.afterDec ref strong) works) :=
      h.frame (.touch hn hplace (items_dec hitems))
    have hdec : NodesOk ((s.touch ref.node (node.afterDec ref strong) works).setRef r
        (ref.count strong (-1))) := htouch.refsOnly rfl rfl rfl rfl rfl le_rfl
    split at hdone
    · exact hdec.deleteRef (ha.decCount hr hn hmem hpos works) hdone
    · rw [hdone]
      exact hdec

theorem getRefForNode (he : binderGetRefForNode s p n kzalloc = .ok (r, s')) :
    NodesOk s' := by
  obtain ⟨-, rfl⟩ | ⟨-, -, -, -, -, -, rfl⟩ | ⟨node, hn, -, -, rfl⟩ := binderGetRefForNode_ok he
  · exact h
  · exact h
  · have hset : NodesOk (s.setNode n { node with refs := s.nextId :: node.refs }) :=
      h.setNode hn rfl
    exact hset.refsOnly rfl rfl rfl rfl rfl (Nat.le_succ _)

end

theorem mem_insertNode (s : Driver) (p ptr cookie : Nat) :
    n ∈ (insertNode s p ptr cookie).procNodes p ↔ n = s.nextId ∨ n ∈ s.procNodes p := by
  unfold insertNode
  simp only [update_self]
  exact mem_orderedInsert _

theorem binderGetNode_some (h : NodesOk s) (hget : binderGetNode s p ptr = some n) :
    ∃ node, s.nodes n = some node ∧ node.proc = some p ∧ node.ptr = ptr := by
  obtain ⟨node, hn, hp⟩ := (h.listed p n).mp (mem_of_find?_eq_some hget)
  have hptr := find?_some hget
  exact ⟨node, hn, hp, by simpa [hn] using hptr⟩

theorem binderGetNode_none (h : NodesOk s) (hget : binderGetNode s p ptr = none)
    (hn : s.nodes n = some node) (hp : node.proc = some p) : node.ptr ≠ ptr := by
  have hmem := (h.listed p n).mpr ⟨node, hn, hp⟩
  have hno := find?_eq_none.mp hget n hmem
  simpa [hn] using hno

theorem insertNode (h : NodesOk s) (ha : Accounts room s) (hget : binderGetNode s p ptr = none) :
    NodesOk (insertNode s p ptr cookie) := by
  have hfresh : s.nodes s.nextId = none := ha.freshNode _ le_rfl
  have hcase : ∀ {m node'}, (Binder.insertNode s p ptr cookie).nodes m = some node' →
      m = s.nextId ∧ node'.proc = some p ∧ node'.ptr = ptr ∨
      m ≠ s.nextId ∧ s.nodes m = some node' := by
    intro m node' hm
    by_cases heq : m = s.nextId
    · simp only [Binder.insertNode, Driver.setNode, heq, update_self, some.injEq] at hm
      exact .inl ⟨heq, hm ▸ rfl, hm ▸ rfl⟩
    · simp only [Binder.insertNode, Driver.setNode, update_of_ne heq] at hm
      exact .inr ⟨heq, hm⟩
  have hkeep : ∀ {m node'}, s.nodes m = some node' →
      (Binder.insertNode s p ptr cookie).nodes m = some node' := by
    intro m node' hm
    have hne : m ≠ s.nextId := ne_of_none hfresh hm
    simpa only [Binder.insertNode, Driver.setNode, update_of_ne hne] using hm
  have hself : (Binder.insertNode s p ptr cookie).nodes s.nextId
      = some ⟨some p, [], 0, 0, 0, ptr, cookie, false, false, false, false, false⟩ := by
    simp [Binder.insertNode, Driver.setNode]
  have hother : ∀ {p'}, p' ≠ p →
      (Binder.insertNode s p ptr cookie).procNodes p' = s.procNodes p' := by
    intro p' hp
    simp only [Binder.insertNode, Driver.setNode, update_of_ne hp]
  have hnotmem : s.nextId ∉ s.procNodes p := by
    intro hmem
    obtain ⟨node, hn, -⟩ := (h.listed p _).mp hmem
    rw [hfresh] at hn
    cases hn
  constructor
  case listed =>
    intro p' m
    by_cases hp : p' = p
    · rw [hp, mem_insertNode, h.listed]
      constructor
      · rintro (rfl | ⟨node, hm, hproc⟩)
        · exact ⟨_, hself, rfl⟩
        · exact ⟨node, hkeep hm, hproc⟩
      · rintro ⟨node, hm, hproc⟩
        obtain ⟨rfl, -⟩ | ⟨-, hm⟩ := hcase hm
        · exact .inl rfl
        · exact .inr ⟨node, hm, hproc⟩
    · rw [hother hp, h.listed]
      constructor
      · rintro ⟨node, hm, hproc⟩
        exact ⟨node, hkeep hm, hproc⟩
      · rintro ⟨node, hm, hproc⟩
        obtain ⟨-, hproc', -⟩ | ⟨-, hm⟩ := hcase hm
        · rw [hproc, some.injEq] at hproc'
          exact absurd hproc' hp
        · exact ⟨node, hm, hproc⟩
  case nodup =>
    intro p'
    by_cases hp : p' = p
    · rw [hp]
      unfold Binder.insertNode
      simp only [update_self]
      exact (perm_orderedInsert _ _ _).nodup_iff.mpr (nodup_cons.mpr ⟨hnotmem, h.nodup p⟩)
    · rw [hother hp]
      exact h.nodup p'
  case ptrs =>
    intro m node₁ m' node₂ p' hm hm' hp hp' hptr
    obtain ⟨rfl, hproc, hptr₁⟩ | ⟨-, hm⟩ := hcase hm
    · obtain ⟨rfl, -⟩ | ⟨-, hm'⟩ := hcase hm'
      · rfl
      · rw [hproc] at hp
        exact absurd (hptr.symm.trans hptr₁) (h.binderGetNode_none hget hm' (hp'.trans hp.symm))
    · obtain ⟨rfl, hproc, hptr₂⟩ | ⟨-, hm'⟩ := hcase hm'
      · rw [hproc] at hp'
        exact absurd (hptr.trans hptr₂) (h.binderGetNode_none hget hm (hp.trans hp'.symm))
      · exact h.ptrs m node₁ m' node₂ p' hm hm' hp hp' hptr
  case works =>
    intro q m hq
    obtain ⟨node, p', hm, hp, htodo⟩ := h.works q m hq
    exact ⟨node, p', hkeep hm, hp, htodo⟩
  case thread =>
    intro p' t ht
    exact ⟨Nat.lt_succ_of_lt (h.thread p' t ht).1, (h.thread p' t ht).2⟩
  case freshThread => exact fun t ht => h.freshThread t (Nat.le_of_succ_le ht)

variable {s s' : Driver}

theorem newNode (h : NodesOk s) (ha : Accounts room s)
    (he : binderNewNode s p ptr cookie kzalloc = (n, s')) : NodesOk s' := by
  unfold binderNewNode at he
  split at he
  next =>
    cases he
    exact h
  next hfree =>
    cases he
    simp only [not_or, Bool.not_eq_true, isSome_eq_false_iff, isNone_iff_eq_none] at hfree
    exact h.insertNode ha hfree.1

theorem modifyNode (h : NodesOk s) (hf : ∀ node, (f node).place = node.place) :
    NodesOk (s.modifyNode n f) := by
  unfold Driver.modifyNode
  cases hn : s.nodes n with
  | none => rwa [map_none, ← hn, update_eq_self]
  | some node => exact h.setNode hn (hf node)

theorem senderNode (h : NodesOk s) (ha : Accounts room s)
    (he : senderNode s p ptr cookie acceptFds kzalloc = (n, s')) : NodesOk s' :=
  senderNode_keeps h (h.newNode ha) (fun h => h.modifyNode fun _ => rfl) he

theorem senderNode_owner (h : NodesOk s)
    (he : Binder.senderNode s p ptr cookie acceptFds kzalloc = (some n, s')) :
    s'.threads = s.threads ∧ s'.procs = s.procs ∧
      ∃ node, s'.nodes n = some node ∧ node.proc = some p := by
  unfold Binder.senderNode at he
  split at he
  next hget =>
    cases he
    obtain ⟨node, hn, hp, -⟩ := h.binderGetNode_some hget
    exact ⟨rfl, rfl, node, hn, hp⟩
  next =>
    split at he
    · cases he
    next hnew =>
      cases he
      unfold binderNewNode at hnew
      split at hnew <;> cases hnew
      exact ⟨rfl, rfl, by simp [Driver.modifyNode, Binder.insertNode, Driver.setNode]⟩

theorem getRefForNode_owner (he : binderGetRefForNode s target n kzalloc = .ok (some r, s'))
    (hn : s.nodes n = some node) : s'.threads = s.threads ∧ ∃ ref node',
      s'.refs r = some ref ∧ s'.nodes ref.node = some node' ∧ node'.proc = node.proc := by
  obtain ⟨hnone, -⟩ | ⟨r', ref, hr, -, href, hnode, rfl⟩ | ⟨node₁, hn₁, -, hr, rfl⟩ :=
    binderGetRefForNode_ok he
  · cases hnone
  · cases hr
    exact ⟨rfl, ref, node, href, hnode ▸ hn, rfl⟩
  · cases hr
    rw [hn, some.injEq] at hn₁
    subst hn₁
    exact ⟨rfl, by simp [insertRef, Driver.setRef, Driver.setNode]⟩

theorem translateBinder (h : NodesOk s) (ha : Accounts room s) (hc : s.calls p t = true)
    (he : translateBinder s p t target ptr cookie strong acceptFds kzallocNode kzallocRef
      = .ok (object, s')) : NodesOk s' := by
  obtain ⟨n, s₀, hsender, htail⟩ := translateBinder_ok he
  have h₀ := h.senderNode ha hsender
  obtain rfl | ⟨m, r, s₁, rfl, hs₁, rfl | ⟨r, ret, rfl, hs₂⟩⟩ := htail
  · exact h₀
  · exact h₀.getRefForNode hs₁
  · obtain ⟨hthreads, -, node₀, hn₀, hp⟩ := h.senderNode_owner hsender
    refine (h₀.getRefForNode hs₁).incRef hs₂ ?_
    rintro q' ⟨⟩ ref' node' hr' hn'
    obtain ⟨hthreads₁, ref, node₁, hr, hn₁, hproc⟩ := getRefForNode_owner hs₁ hn₀
    rw [hr, some.injEq] at hr'
    subst hr'
    rw [hn₁, some.injEq] at hn'
    subst hn'
    obtain ⟨-, thread, ht, hthread⟩ := Driver.calls_iff.mp hc
    refine ⟨p, hproc.trans hp, .inr ⟨t, thread, rfl, ?_, hthread⟩⟩
    rw [hthreads₁, hthreads, ht]

theorem deathsOnly (h : NodesOk s) (hnodes : s'.nodes = s.nodes)
    (hprocNodes : s'.procNodes = s.procNodes)
    (hworks : ∀ x ∈ s'.works, x ∈ s.works ∨ ∃ q d, x = (q, .death d))
    (hthreads : s'.threads = s.threads) (hprocThreads : s'.procThreads = s.procThreads)
    (hnext : s.nextId ≤ s'.nextId) : NodesOk s' := by
  refine h.frame (.rest hnodes hprocNodes ?_ hthreads hprocThreads hnext)
  intro q n hq
  obtain hq | ⟨q', d, heq⟩ := hworks _ hq
  · exact hq
  · cases heq

theorem deathStep (h : NodesOk s) (hstep : DeathStep s s') : NodesOk s' := by
  obtain ⟨-, hworks, hnext⟩ := hstep
  exact h.deathsOnly rfl rfl hworks rfl rfl hnext

theorem readNodeWork (h : NodesOk s) (hitem : (q, .node n) ∈ s.works) (htodo : s.Todo p q)
    (he : readNodeWork s p n = .ok s') : NodesOk s' := by
  obtain ⟨node, hn, ⟨_, _, _, _, _, _, rfl⟩ | ⟨-, -, -, -, rfl⟩ | rfl⟩ := readNodeWork_ok he
  · exact h.setNode hn (by rfl)
  · obtain ⟨node₀, p₀, hn₀, hp₀, htodo₀⟩ := h.works q n hitem
    rw [hn, some.injEq] at hn₀
    subst hn₀
    exact h.freeNode hn (hp₀.trans (congrArg some (htodo₀.unique htodo)))
  · exact h.deathsOnly rfl rfl (fun _ hx => .inl (mem_of_mem_filter hx)) rfl rfl le_rfl

theorem todo_of_calls (hc : s.calls p t = true)
    (hw : (Queue.thread t, w) ∈ s.works ∨ (Queue.proc p, w) ∈ s.works) :
    ∃ q, (q, w) ∈ s.works ∧ s.Todo p q := by
  obtain ⟨-, thread, ht, hthread⟩ := Driver.calls_iff.mp hc
  obtain hw | hw := hw
  · exact ⟨_, hw, .inr ⟨t, thread, rfl, ht, hthread⟩⟩
  · exact ⟨_, hw, .inl rfl⟩

theorem readWork (h : NodesOk s) (hc : s.calls p t = true) (he : readWork s p t w = .ok s') :
    NodesOk s' := by
  unfold Binder.readWork at he
  split at he
  next hw =>
    obtain ⟨q, hitem, htodo⟩ := todo_of_calls hc hw
    cases w with
    | node n => exact h.readNodeWork hitem htodo he
    | death d => exact h.deathStep (.readDeathWork he)
  next =>
    cases he
    exact h

theorem freeThread (h : NodesOk s) : NodesOk (binderFreeThread p s t) := by
  have hkeep : ∀ {p' t' thread}, s.threads t' = some thread → t' ≠ t → thread.proc = p' →
      (binderFreeThread p s t).Todo p' (.thread t') := by
    intro p' t' thread ht' hne hproc
    exact .inr ⟨t', thread, rfl, by simp [binderFreeThread, update_of_ne hne, ht'], hproc⟩
  refine { h with works := ?works, thread := ?thread, freshThread := ?freshThread }
  case works =>
    intro q n hq
    obtain ⟨hq, hne⟩ := mem_filter.mp hq
    obtain ⟨node, p', hn, hp, htodo⟩ := h.works q n hq
    refine ⟨node, p', hn, hp, ?_⟩
    obtain rfl | ⟨t', thread, rfl, ht', hproc⟩ := htodo
    · exact .inl rfl
    · exact hkeep ht' (by simpa using hne) hproc
  case thread =>
    intro p' t' ht'
    have hmem : t' ∈ s.procThreads p' := by
      by_cases hp : p' = p
      · subst hp
        simp only [binderFreeThread, update_self] at ht'
        exact mem_of_mem_erase ht'
      · simpa only [binderFreeThread, update_of_ne hp] using ht'
    refine ⟨(h.thread p' t' hmem).1, ?_⟩
    intro thread hthread
    by_cases hne : t' = t
    · simp [binderFreeThread, hne] at hthread
    · simp only [binderFreeThread, update_of_ne hne] at hthread
      exact (h.thread p' t' hmem).2 thread hthread
  case freshThread =>
    intro t' ht'
    by_cases hne : t' = t
    · simp [binderFreeThread, hne]
    · simpa [binderFreeThread, update_of_ne hne] using h.freshThread t' ht'

theorem releaseNode (h : NodesOk s) (hmem : n ∈ s.procNodes p) (he : releaseNode p s n = .ok s') :
    NodesOk s' ∧ s'.procNodes = update s.procNodes p ((s.procNodes p).erase n) := by
  obtain ⟨node₀, hn₀, hp⟩ := (h.listed p n).mp hmem
  obtain ⟨node, hn, he⟩ := bind_eq_ok.mp he
  rw [node_eq_ok] at hn
  rw [hn, some.injEq] at hn₀
  subst hn₀
  split at he
  · cases he
    exact ⟨h.freeNode hn hp, rfl⟩
  · refine foldlM_ok_invariant (fun _ s' => NodesOk s' ∧ s'.procNodes
      = update s.procNodes p ((s.procNodes p).erase n)) ?_ ?_ he
    · intro r _ s₁ s₂ h₁ hs₂
      have hstep := DeathStep.notifyDeath hs₂
      exact ⟨h₁.1.deathStep hstep, hstep.procNodes_eq.trans h₁.2⟩
    · refine ⟨?_, rfl⟩
      refine h.dropNode (some p) hn rfl rfl ?_ hp (fun _ _ hq => mem_listDel_node hq) rfl rfl rfl
      rintro node' ⟨⟩
      rfl

theorem freeThreads (h : NodesOk s) (ts : List Nat) :
    NodesOk (ts.foldl (binderFreeThread p) s) := by
  induction ts generalizing s with
  | nil => exact h
  | cons t ts ih => exact ih h.freeThread

def Remaining (p : Nat) (ns : List Nat) (s : Driver) : Prop :=
  ns.Nodup ∧ ∀ n ∈ ns, n ∈ s.procNodes p

theorem Remaining.step (h : Remaining p (n :: ns) s)
    (hs' : s'.procNodes = update s.procNodes p ((s.procNodes p).erase n)) :
    Remaining p ns s' := by
  obtain ⟨hnot, hnodup⟩ := nodup_cons.mp h.1
  refine ⟨hnodup, ?_⟩
  intro m hm
  rw [hs', update_self]
  have hne : m ≠ n := fun heq => hnot (heq ▸ hm)
  exact (mem_erase_of_ne hne).mpr (h.2 m (by simp [hm]))

theorem releaseNodes (h : NodesOk s) (ha : Accounts room s)
    (he : (s.procNodes p).foldlM (Binder.releaseNode p) s = .ok s') :
    NodesOk s' ∧ Accounts room s' := by
  have hend := foldlM_ok_invariant (fun ns s => (NodesOk s ∧ Accounts room s) ∧ Remaining p ns s) ?_
    ⟨⟨h, ha⟩, h.nodup p, fun _ hn => hn⟩ he
  · exact hend.1
  · intro n ns s₁ s₂ h₁ hs₂
    obtain ⟨hok, hprocNodes⟩ := h₁.1.1.releaseNode (h₁.2.2 n (by simp)) hs₂
    exact ⟨⟨hok, h₁.1.2.releaseNode hs₂⟩, h₁.2.step hprocNodes⟩

theorem deferredRelease (h : NodesOk s) (ha : Accounts room s)
    (he : binderDeferredRelease s p = .ok s') : NodesOk s' := by
  obtain ⟨s₁, hs₁, he⟩ := bind_eq_ok.mp he
  obtain ⟨s₂, hs₂, he⟩ := bind_eq_ok.mp he
  cases he
  have h₀ : NodesOk (unlistProc s p) := h.refsOnly rfl rfl rfl rfl rfl le_rfl
  have ha₀ : Accounts room (unlistProc s p) := ha.rest rfl rfl rfl rfl le_rfl rfl
  have h₁ := (h₀.freeThreads _).releaseNodes (ha₀.freeThreads _) hs₁
  have h₂ := foldlM_ok_invariant (fun _ s => NodesOk s ∧ Accounts room s)
    (fun h hs => ⟨h.1.deleteRef h.2 hs, h.2.deleteRef hs⟩) h₁ hs₂
  exact h₂.1.deathsOnly rfl rfl (fun _ hx => .inl (mem_of_mem_filter hx)) rfl rfl le_rfl

theorem getThread (h : NodesOk s) : NodesOk (binderGetThread s p) := by
  have hfresh : s.threads s.nextId = none := h.freshThread _ le_rfl
  refine { h with works := ?works, thread := ?thread, freshThread := ?freshThread }
  case works =>
    intro q n hq
    obtain ⟨node, p', hn, hp, htodo⟩ := h.works q n hq
    refine ⟨node, p', hn, hp, htodo.imp id ?_⟩
    rintro ⟨t, thread, rfl, ht, hproc⟩
    have hne : t ≠ s.nextId := ne_of_none hfresh ht
    exact ⟨t, thread, rfl, by simp [binderGetThread, update_of_ne hne, ht], hproc⟩
  case thread =>
    intro p' t ht
    have hcase : t = s.nextId ∧ p' = p ∨ t ∈ s.procThreads p' := by
      by_cases hp : p' = p
      · subst hp
        simp only [binderGetThread, update_self, mem_cons] at ht
        exact ht.imp (⟨·, rfl⟩) id
      · simp only [binderGetThread, update_of_ne hp] at ht
        exact .inr ht
    obtain ⟨rfl, rfl⟩ | ht := hcase
    · refine ⟨Nat.lt_succ_self _, ?_⟩
      intro thread hthread
      simp only [binderGetThread, update_self, some.injEq] at hthread
      exact hthread ▸ rfl
    · obtain ⟨hlt, hproc⟩ := h.thread p' t ht
      refine ⟨Nat.lt_succ_of_lt hlt, ?_⟩
      intro thread hthread
      simp only [binderGetThread, update_of_ne hlt.ne] at hthread
      exact hproc thread hthread
  case freshThread =>
    intro t ht
    have hne : t ≠ s.nextId := (Nat.lt_of_succ_le ht).ne'
    simpa [binderGetThread, update_of_ne hne] using h.freshThread t (Nat.le_of_succ_le ht)

theorem enterLooper (h : NodesOk s) (hc : s.calls p t = true) :
    NodesOk { s with threads := update s.threads t (some ⟨p, true⟩) } := by
  obtain ⟨-, thread₀, ht₀, hproc₀⟩ := Driver.calls_iff.mp hc
  refine { h with works := ?works, thread := ?thread, freshThread := ?freshThread }
  case works =>
    intro q n hq
    obtain ⟨node, p', hn, hp, htodo⟩ := h.works q n hq
    refine ⟨node, p', hn, hp, htodo.imp id ?_⟩
    rintro ⟨t', thread, rfl, ht, hproc⟩
    by_cases hne : t' = t
    · subst hne
      rw [ht₀, some.injEq] at ht
      exact ⟨t', ⟨p, true⟩, rfl, update_self .., by rw [← hproc, ← ht, hproc₀]⟩
    · exact ⟨t', thread, rfl, by simpa [update_of_ne hne] using ht, hproc⟩
  case thread =>
    intro p' t' ht'
    obtain ⟨hlt, hproc⟩ := h.thread p' t' ht'
    refine ⟨hlt, ?_⟩
    intro thread hthread
    obtain ⟨rfl, rfl⟩ | ⟨-, hthread⟩ := update_some_iff.mp hthread
    · rw [← hproc thread₀ ht₀, hproc₀]
    · exact hproc thread hthread
  case freshThread =>
    intro t' ht'
    have hne : t' ≠ t := (ne_of_none (h.freshThread _ ht') ht₀).symm
    simpa [update_of_ne hne] using h.freshThread t' ht'

theorem setContextMgr (h : NodesOk s) (ha : Accounts room s) :
    NodesOk (setContextMgr s p kzalloc) := by
  unfold Binder.setContextMgr
  split
  · exact h
  · split
    next hnew => exact h.newNode ha hnew
    next n s₁ hnew =>
      refine refsOnly (s := s₁.modifyNode n _) ((h.newNode ha hnew).modifyNode ?_)
        rfl rfl rfl rfl rfl le_rfl
      exact fun node => rfl

end NodesOk

structure Owned (s : Driver) : Prop where
  accounts : Accounts 0 s
  nodes : NodesOk s

theorem Owned.deathStep (h : Owned s) (hstep : DeathStep s s') : Owned s' :=
  ⟨h.accounts.deathStep hstep, h.nodes.deathStep hstep⟩

theorem Owned.stable : StepStable Owned Owned fun _ _ => True where
  weaken h := h
  incNode h he := ⟨h.accounts.incNode he, h.nodes.incNode he fun _ hq => nomatch hq⟩
  decNode h he := ⟨h.accounts.decNode he, h.nodes.decNode he⟩
  incRef h he := ⟨h.accounts.incRef he, h.nodes.incRef he fun _ hq => nomatch hq⟩
  decRef h he := ⟨h.accounts.decRef he, h.nodes.decRef h.accounts he⟩
  getRefForNode h _ he := ⟨h.accounts.getRefForNode he, h.nodes.getRefForNode he⟩
  pending h hn := ⟨h.accounts.setNode hn (by rfl), h.nodes.setNode hn (by rfl)⟩
  binderOpen h := ⟨Accounts.stable.binderOpen h.accounts,
    h.nodes.refsOnly rfl rfl rfl rfl rfl (Nat.le_succ _)⟩
  getThread h hp := ⟨Accounts.stable.getThread h.accounts hp, h.nodes.getThread⟩
  enterLooper h hc := ⟨Accounts.stable.enterLooper h.accounts hc, h.nodes.enterLooper hc⟩
  setContextMgr h _ := ⟨h.accounts.setContextMgr, h.nodes.setContextMgr h.accounts⟩
  translateBinder h hc _ he :=
    ⟨h.accounts.translateBinder he, h.nodes.translateBinder h.accounts hc he⟩
  requestDeath h _ he := h.deathStep (.requestDeath he)
  clearDeath h _ he := h.deathStep (.clearDeath he)
  deadBinderDone h _ he := h.deathStep (.deadBinderDone he)
  readWork h hc he := ⟨h.accounts.readWork he, h.nodes.readWork hc he⟩
  threadExit h _ _ := ⟨h.accounts.freeThread, h.nodes.freeThread⟩
  release h _ he := ⟨h.accounts.deferredRelease he, h.nodes.deferredRelease h.accounts he⟩

theorem Owned.init : Owned Driver.init where
  accounts := Accounts.init.mono (Nat.zero_le _)
  nodes :=
    { listed := fun _ _ => ⟨nofun, nofun⟩
      nodup := fun _ => nodup_nil
      ptrs := fun _ _ _ _ _ hn => nomatch hn
      works := fun _ _ hq => nomatch hq
      thread := fun _ _ ht => nomatch ht
      freshThread := fun _ _ => rfl }

end SpicaKernel.Binder

import SpicaKernel.BinderNodes
import SpicaKernel.Runs

namespace SpicaKernel.Binder
open Function List Option
set_option autoImplicit true

theorem node_eq_ok {s : Driver} : s.node n = .ok node ↔ s.nodes n = some node := by
  unfold Driver.node
  cases s.nodes n <;> simp

theorem ref_eq_ok {s : Driver} : s.ref r = .ok ref ↔ s.refs r = some ref := by
  unfold Driver.ref
  cases s.refs r <;> simp

def BinderNode.count (node : BinderNode) (strong internal : Bool) (k : Int32) : BinderNode :=
  match strong, internal with
  | true, true => { node with internalStrongRefs := node.internalStrongRefs + k }
  | true, false => { node with localStrongRefs := node.localStrongRefs + k }
  | false, true => node
  | false, false => { node with localWeakRefs := node.localWeakRefs + k }

def Driver.touch (s : Driver) (n : Nat) (node : BinderNode) (works : List (Queue × Work)) :
    Driver :=
  { s with nodes := update s.nodes n (some node), works := works }

def SameBut (n : Nat) (l l' : List (Queue × Work)) : Prop :=
  l'.filter (fun x => x.2 ≠ .node n) = l.filter (fun x => x.2 ≠ .node n)

theorem SameBut.refl : SameBut n l l := rfl

theorem SameBut.append (q : Queue) (h : SameBut n l l') : SameBut n l (l' ++ [(q, .node n)]) := by
  simpa [SameBut] using h

theorem SameBut.filter : SameBut n l (l.filter (fun x => x.2 ≠ .node n)) := by
  simp [SameBut]

/-- The only new item is that of a node, in the list of its process. -/
def ToOwner (proc : Option Nat) (n : Nat) (l l' : List (Queue × Work)) : Prop :=
  ∀ x ∈ l', x ∈ l ∨ ∃ p, proc = some p ∧ x = (.proc p, .node n)

theorem ToOwner.refl : ToOwner proc n l l := fun _ hx => .inl hx

theorem touch_self {s : Driver} (h : s.nodes n = some node) : s.touch n node s.works = s := by
  simp [Driver.touch, ← h]

theorem binderIncNode_ok (h : binderIncNode s n strong internal q = .ok (ret, s')) :
    ∃ node works, s.nodes n = some node ∧ SameBut n s.works works ∧
      (∀ x ∈ works, x ∈ s.works ∨ ∃ q', q = some q' ∧ x = (q', .node n)) ∧
      (ret ≠ 0 → works = s.works) ∧
      s' = s.touch n (if ret = 0 ∨ strong = false then node.count strong internal 1 else node)
        works := by
  obtain ⟨node, hnode, h⟩ := bind_eq_ok.mp h
  rw [node_eq_ok] at hnode
  refine ⟨node, ?_⟩
  cases strong with
  | true =>
    simp only [if_true] at h
    split at h
    next =>
      cases h
      refine ⟨s.works, hnode, .refl, fun x hx => .inl hx, fun _ => rfl, ?_⟩
      simp [EINVAL, touch_self hnode]
    next =>
      have hcount : (if internal then
          { node with internalStrongRefs := node.internalStrongRefs + 1 }
          else { node with localStrongRefs := node.localStrongRefs + 1 })
          = node.count true internal 1 := by cases internal <;> rfl
      rw [hcount] at h
      cases q with
      | none =>
        cases h
        exact ⟨s.works, hnode, .refl, fun x hx => .inl hx, nofun,
          by simp [Driver.touch, Driver.setNode]⟩
      | some q =>
        simp only at h
        split at h <;> cases h
        · refine ⟨_, hnode, SameBut.filter.append q, ?_, nofun, ?_⟩
          · intro x hx
            rw [mem_append, mem_filter, mem_singleton] at hx
            exact hx.imp And.left fun hx => ⟨q, rfl, hx⟩
          · simp [Driver.touch, Driver.setNode, Driver.listAddTail, Driver.listDel]
        · exact ⟨s.works, hnode, .refl, fun x hx => .inl hx, nofun,
            by simp [Driver.touch, Driver.setNode]⟩
  | false =>
    have hcount : (if internal then node
        else { node with localWeakRefs := node.localWeakRefs + 1 })
        = node.count false internal 1 := by cases internal <;> rfl
    have hweak : (node.count false internal 1).hasWeakRef = node.hasWeakRef := by
      cases internal <;> rfl
    simp only [Bool.false_eq_true, if_false, hcount, hweak] at h
    split at h
    next =>
      cases q with
      | none =>
        cases h
        exact ⟨s.works, hnode, .refl, fun x hx => .inl hx, fun _ => rfl,
          by simp [Driver.touch, Driver.setNode]⟩
      | some q =>
        cases h
        refine ⟨_, hnode, SameBut.refl.append q, ?_, nofun, ?_⟩
        · intro x hx
          rw [mem_append, mem_singleton] at hx
          exact hx.imp id fun hx => ⟨q, rfl, hx⟩
        · simp [Driver.touch, Driver.setNode, Driver.listAddTail]
    next =>
      cases h
      exact ⟨s.works, hnode, .refl, fun x hx => .inl hx, nofun,
          by simp [Driver.touch, Driver.setNode]⟩

@[simp] theorem BinderNode.count_proc :
    (BinderNode.count node strong internal k).proc = node.proc := by
  cases strong <;> cases internal <;> rfl

@[simp] theorem BinderNode.count_refs :
    (BinderNode.count node strong internal k).refs = node.refs := by
  cases strong <;> cases internal <;> rfl

def BinderNode.known (node : BinderNode) : Bool :=
  node.proc.isSome && (node.hasStrongRef || node.hasWeakRef)

@[simp] theorem BinderNode.count_known :
    (BinderNode.count node strong internal k).known = node.known := by
  cases strong <;> cases internal <;> rfl

theorem settleNode_cases (s : Driver) (n : Nat) (node : BinderNode) :
    (∃ works, SameBut n s.works works ∧ ToOwner node.proc n s.works works ∧
      settleNode s n node = s.touch n node works) ∨
    node.refs = [] ∧ node.localStrongRefs = 0 ∧ node.localWeakRefs = 0 ∧ node.known = false ∧
      settleNode s n node = s.freeNode .decNode node.proc n node := by
  unfold settleNode
  split
  next p hproc _ =>
    refine .inl ?_
    split
    · exact ⟨s.works, .refl, .refl, rfl⟩
    · refine ⟨_, SameBut.refl.append (.proc p), ?_, rfl⟩
      intro x hx
      rw [mem_append, mem_singleton] at hx
      exact hx.imp id fun hx => ⟨p, hproc, hx⟩
  next hunknown =>
    split
    next hempty =>
      refine .inr ⟨hempty.1, hempty.2.1, hempty.2.2, ?_, rfl⟩
      unfold BinderNode.known
      cases hproc : node.proc with
      | none => rfl
      | some p =>
        rw [isSome_some, Bool.eq_false_iff]
        exact fun hflag => hunknown p hproc hflag
    next => exact .inl ⟨s.works, .refl, .refl, rfl⟩

theorem binderDecNode_ok (h : binderDecNode s n strong internal = .ok s') :
    ∃ node, s.nodes n = some node ∧
      ((∃ works, SameBut n s.works works ∧ ToOwner node.proc n s.works works ∧
        s' = s.touch n (node.count strong internal (-1)) works) ∨
      node.refs = [] ∧ (node.count strong internal (-1)).localStrongRefs = 0 ∧
        (node.count strong internal (-1)).localWeakRefs = 0 ∧ node.known = false ∧
        s' = s.freeNode .decNode node.proc n (node.count strong internal (-1))) := by
  obtain ⟨node, hnode, h⟩ := bind_eq_ok.mp h
  rw [node_eq_ok] at hnode
  refine ⟨node, hnode, ?_⟩
  have hsettle := settleNode_cases s n (node.count strong internal (-1))
  rw [BinderNode.count_proc, BinderNode.count_refs, BinderNode.count_known] at hsettle
  have hstay : ∃ works, SameBut n s.works works ∧ ToOwner node.proc n s.works works ∧
      s.setNode n (node.count strong internal (-1))
        = s.touch n (node.count strong internal (-1)) works :=
    ⟨s.works, .refl, .refl, rfl⟩
  cases strong with
  | true =>
    have hcount : (if internal then
        { node with internalStrongRefs := node.internalStrongRefs - 1 }
        else { node with localStrongRefs := node.localStrongRefs - 1 })
        = node.count true internal (-1) := by
      cases internal <;> simp only [BinderNode.count, Int32.sub_eq_add_neg] <;> rfl
    simp only [if_true, hcount] at h
    split at h <;> cases h
    · exact .inl hstay
    · exact hsettle
  | false =>
    have hcount : (if internal then node
        else { node with localWeakRefs := node.localWeakRefs - 1 })
        = node.count false internal (-1) := by
      cases internal <;> simp only [BinderNode.count, Int32.sub_eq_add_neg] <;> rfl
    simp only [Bool.false_eq_true, if_false, hcount] at h
    split at h <;> cases h
    · exact .inl hstay
    · exact hsettle

theorem SameBut.trans (h : SameBut n l l') (h' : SameBut n l' l'') : SameBut n l l'' :=
  Eq.trans h' h

def dropDeath (death : Option Nat) (l : List (Queue × Work)) : List (Queue × Work) :=
  match death with
  | some d => l.filter (fun x => x.2 ≠ .death d)
  | none => l

theorem SameBut.dropDeath (death : Option Nat) (h : SameBut n l l') :
    SameBut n (dropDeath death l) (dropDeath death l') := by
  cases death with
  | none => exact h
  | some d =>
    have hcomm : ∀ l : List (Queue × Work),
        (l.filter (fun x => x.2 ≠ .death d)).filter (fun x => x.2 ≠ .node n)
          = (l.filter (fun x => x.2 ≠ .node n)).filter (fun x => x.2 ≠ .death d) := by
      intro l
      simp [Bool.and_comm]
    exact (hcomm l').trans ((congrArg _ h).trans (hcomm l).symm)

theorem mem_of_mem_dropDeath (h : x ∈ dropDeath death l) : x ∈ l := by
  cases death with
  | none => exact h
  | some d => exact mem_of_mem_filter h

def Driver.dropRef (s : Driver) (r : Nat) (ref : BinderRef) : Driver :=
  { s with
    refs := update s.refs r none
    refsByDesc := update s.refsByDesc ref.proc ((s.refsByDesc ref.proc).erase r)
    refsByNode := update s.refsByNode ref.proc ((s.refsByNode ref.proc).erase r)
    deaths := match ref.death with
      | some d => update s.deaths d none
      | none => s.deaths }

def BinderNode.dropRef (node : BinderNode) (r : Nat) (ref : BinderRef) : BinderNode :=
  { node with
    refs := node.refs.erase r
    internalStrongRefs := node.internalStrongRefs - if ref.strong ≠ 0 then 1 else 0 }

theorem binderDeleteRef_ok (h : binderDeleteRef s r = .ok s') (href : s.refs r = some ref)
    (hnode : s.nodes ref.node = some node) (hmem : r ∈ node.refs) :
    ∃ works, SameBut ref.node (dropDeath ref.death s.works) works ∧
      ToOwner node.proc ref.node s.works works ∧
      (s' = (s.dropRef r ref).touch ref.node (node.dropRef r ref) works ∨
      (node.dropRef r ref).refs = [] ∧ node.localStrongRefs = 0 ∧ node.localWeakRefs = 0 ∧
        node.known = false ∧ (∀ q, (q, .node ref.node) ∉ works) ∧
        s' = { (s.dropRef r ref).freeNode .decNode node.proc ref.node (node.dropRef r ref) with
          works := works }) := by
  replace h := after_ok (ref_eq_ok.mpr href) h
  obtain ⟨s₂, hs₂, h⟩ := bind_eq_ok.mp h
  -- While the reference is in the list of the node, the node stays.
  have hfirst : ∃ works, SameBut ref.node s.works works ∧ ToOwner node.proc ref.node s.works works ∧
      s₂ = Driver.touch { s with
        refsByDesc := update s.refsByDesc ref.proc ((s.refsByDesc ref.proc).erase r)
        refsByNode := update s.refsByNode ref.proc ((s.refsByNode ref.proc).erase r) }
        ref.node { node with internalStrongRefs :=
          node.internalStrongRefs - if ref.strong ≠ 0 then 1 else 0 } works := by
    split at hs₂
    next hstrong =>
      obtain ⟨node', hnode', ⟨works, hsame, hitems, rfl⟩ | ⟨hempty, -⟩⟩ := binderDecNode_ok hs₂
      all_goals rw [show s.nodes ref.node = some node' from hnode', some.injEq] at hnode
      · subst hnode
        exact ⟨works, hsame, hitems, by simp [hstrong, BinderNode.count, Int32.sub_eq_add_neg]⟩
      · rw [← hnode, hempty] at hmem
        cases hmem
    next hstrong =>
      cases hs₂
      refine ⟨s.works, .refl, .refl, ?_⟩
      simp only [hstrong, if_false, Int32.sub_zero]
      exact (touch_self (by exact hnode)).symm
  obtain ⟨works₂, hsame₂, hitems₂, rfl⟩ := hfirst
  obtain ⟨node₂, hnode₂, h⟩ := bind_eq_ok.mp h
  rw [node_eq_ok] at hnode₂
  simp only [Driver.touch, update_self, some.injEq] at hnode₂
  subst hnode₂
  obtain ⟨s₃, hs₃, h⟩ := bind_eq_ok.mp h
  obtain ⟨node₃, hnode₃, hlast⟩ := binderDecNode_ok hs₃
  simp only [Driver.setNode, update_self, some.injEq] at hnode₃
  subst hnode₃
  have hitems : ∀ {works}, ToOwner node.proc ref.node works₂ works →
      ToOwner node.proc ref.node s.works (dropDeath ref.death works) :=
    fun hw x hx => (hw x (mem_of_mem_dropDeath hx)).elim (hitems₂ x) .inr
  obtain ⟨works₃, hsame₃, hitems₃, rfl⟩ | ⟨hempty, hlocal, hweak, hknown, rfl⟩ := hlast
  · refine ⟨dropDeath ref.death works₃, (hsame₂.trans hsame₃).dropDeath _, hitems hitems₃, .inl ?_⟩
    cases hdeath : ref.death <;>
    · simp only [hdeath] at h
      cases h
      simp [Driver.touch, Driver.setNode, Driver.dropRef, Driver.listDel, BinderNode.dropRef,
        BinderNode.count, dropDeath, hdeath]
  · refine ⟨dropDeath ref.death (works₂.filter (fun x => x.2 ≠ .node ref.node)),
      (hsame₂.trans .filter).dropDeath _, hitems fun x hx => .inl (mem_of_mem_filter hx),
      .inr ⟨hempty, hlocal, hweak, hknown, ?_, ?_⟩⟩
    · intro q hq
      simpa using of_mem_filter (mem_of_mem_dropDeath hq)
    · cases hdeath : ref.death <;>
      · simp only [hdeath] at h
        cases h
        simp [Driver.touch, Driver.setNode, Driver.dropRef, Driver.listDel, BinderNode.dropRef,
          BinderNode.count, Driver.freeNode, dropDeath, hdeath]

def BinderRef.total (ref : BinderRef) (strong : Bool) : Int32 :=
  if strong then ref.strong else ref.weak

def BinderRef.count (ref : BinderRef) (strong : Bool) (k : Int32) : BinderRef :=
  if strong then { ref with strong := ref.strong + k } else { ref with weak := ref.weak + k }

theorem BinderRef.count_node (ref : BinderRef) (strong : Bool) (k : Int32) :
    (ref.count strong k).node = ref.node := by
  cases strong <;> rfl

theorem binderIncRef_ok (h : binderIncRef s r strong q = .ok (ret, s')) :
    ∃ ref, s.refs r = some ref ∧ (ret ≠ 0 ∧ s' = s ∨
      ret = 0 ∧ ref.total strong ≠ 0 ∧ s' = s.setRef r (ref.count strong 1) ∨
      ret = 0 ∧ ref.total strong = 0 ∧ ∃ node works, s.nodes ref.node = some node ∧
        SameBut ref.node s.works works ∧
        (∀ x ∈ works, x ∈ s.works ∨ ∃ q', q = some q' ∧ x = (q', .node ref.node)) ∧
        s' = (s.touch ref.node (node.count strong true 1) works).setRef r
          (ref.count strong 1)) := by
  obtain ⟨ref, href, h⟩ := bind_eq_ok.mp h
  rw [ref_eq_ok] at href
  refine ⟨ref, href, ?_⟩
  obtain ⟨⟨ret', s₁⟩, hs₁, h⟩ := bind_eq_ok.mp h
  change (if ref.total strong = 0 then _ else _) = _ at hs₁
  change (if ret' ≠ 0 then pure (ret', s₁)
    else pure (0, s₁.setRef r (ref.count strong 1))) = Except.ok (ret, s') at h
  split at hs₁
  next hzero =>
    obtain ⟨node, works, hnode, hsame, hitems, hfail, rfl⟩ := binderIncNode_ok hs₁
    split at h
    next hret =>
      cases h
      refine .inl ⟨hret, ?_⟩
      rw [hfail hret]
      cases strong <;> simp [hret, BinderNode.count, touch_self hnode]
    next hret =>
      cases h
      rw [not_not] at hret
      exact .inr (.inr ⟨rfl, hzero, node, works, hnode, hsame, hitems, by simp [hret]⟩)
  next hpos =>
    cases hs₁
    cases h
    exact .inr (.inl ⟨rfl, hpos, rfl⟩)

def BinderNode.afterDec (node : BinderNode) (ref : BinderRef) (strong : Bool) : BinderNode :=
  if strong = true ∧ (ref.count strong (-1)).strong = 0 then node.count true true (-1) else node

theorem binderDecRef_first {s : Driver} (hnode : s.nodes ref.node = some node)
    (hmem : r ∈ node.refs)
    (h : (if strong = true ∧ (ref.count strong (-1)).strong = 0
      then binderDecNode (s.setRef r (ref.count strong (-1))) (ref.count strong (-1)).node true true
      else .ok (s.setRef r (ref.count strong (-1)))) = .ok s') :
    ∃ works, SameBut ref.node s.works works ∧ ToOwner node.proc ref.node s.works works ∧
      s' = (s.touch ref.node (node.afterDec ref strong) works).setRef r
        (ref.count strong (-1)) := by
  unfold BinderNode.afterDec
  split at h
  next hlast =>
    rw [BinderRef.count_node] at h
    obtain ⟨node', hnode', ⟨works, hsame, hitems, rfl⟩ | ⟨hempty, -⟩⟩ := binderDecNode_ok h
    all_goals rw [show s.nodes ref.node = some node' from hnode', some.injEq] at hnode
    · subst hnode
      exact ⟨works, hsame, hitems, by rw [if_pos hlast]; rfl⟩
    · rw [← hnode, hempty] at hmem
      cases hmem
  next hlast =>
    cases h
    refine ⟨s.works, .refl, .refl, ?_⟩
    rw [if_neg hlast, touch_self hnode]

theorem BinderRef.count_dec (ref : BinderRef) (strong : Bool) :
    (if strong then { ref with strong := ref.strong - 1 }
      else { ref with weak := ref.weak - 1 }) = ref.count strong (-1) := by
  cases strong <;> simp only [BinderRef.count, Int32.sub_eq_add_neg]

theorem binderDecRef_ok (h : binderDecRef s r strong = .ok (ret, s')) (href : s.refs r = some ref)
    (hnode : s.nodes ref.node = some node) (hmem : r ∈ node.refs) :
    ref.total strong = 0 ∧ ret = -EINVAL ∧ s' = s ∨
    ref.total strong ≠ 0 ∧ ret = 0 ∧ ∃ works, SameBut ref.node s.works works ∧
      ToOwner node.proc ref.node s.works works ∧
      if (ref.count strong (-1)).strong = 0 ∧ (ref.count strong (-1)).weak = 0
      then binderDeleteRef ((s.touch ref.node (node.afterDec ref strong) works).setRef r
        (ref.count strong (-1))) r = .ok s'
      else s' = (s.touch ref.node (node.afterDec ref strong) works).setRef r
        (ref.count strong (-1)) := by
  replace h := after_ok (ref_eq_ok.mpr href) h
  change (if ref.total strong = 0 then pure (-EINVAL, s) else _) = _ at h
  split at h
  next hzero =>
    cases h
    exact .inl ⟨hzero, rfl, rfl⟩
  next hpos =>
    simp only [BinderRef.count_dec] at h
    obtain ⟨s₁, hs₁, h⟩ := bind_eq_ok.mp h
    obtain ⟨works, hsame, hitems, rfl⟩ := binderDecRef_first hnode hmem hs₁
    split at h
    next hdead =>
      obtain ⟨s₂, hs₂, h⟩ := bind_eq_ok.mp h
      cases h
      exact .inr ⟨hpos, rfl, works, hsame, hitems, by rwa [if_pos hdead]⟩
    next hlive =>
      cases h
      exact .inr ⟨hpos, rfl, works, hsame, hitems, by rw [if_neg hlive]⟩

theorem binderGetRefForNode_ok (h : binderGetRefForNode s p n kzalloc = .ok (r, s')) :
    r = none ∧ s' = s ∨
    (∃ r' ref, r = some r' ∧ r' ∈ s.refsByNode p ∧ s.refs r' = some ref ∧ ref.node = n ∧ s' = s) ∨
    ∃ node, s.nodes n = some node ∧ newDesc s p n ∉ (s.refsByDesc p).map (refDesc s) ∧
      r = some s.nextId ∧ s' = insertRef s p n (newDesc s p n) node := by
  unfold binderGetRefForNode at h
  split at h
  next r' hfind =>
    cases h
    have hany := find?_some hfind
    cases href : s.refs r' with
    | none => simp [href] at hany
    | some ref =>
      refine .inr (.inl ⟨r', ref, rfl, mem_of_find?_eq_some hfind, href, ?_, rfl⟩)
      simpa [href] using hany
  next =>
    split at h
    · cases h
      exact .inl ⟨rfl, rfl⟩
    · obtain ⟨node, hnode, h⟩ := bind_eq_ok.mp h
      rw [node_eq_ok] at hnode
      dsimp only at h
      split at h
      · cases h
      next hdesc =>
        cases h
        exact .inr (.inr ⟨node, hnode, hdesc, rfl, rfl⟩)

theorem readNodeWork_ok (h : readNodeWork s p n = .ok s') : ∃ node, s.nodes n = some node ∧
    ((∃ strong pendingStrong localStrong weak pendingWeak localWeak, s' = s.setNode n { node with
        hasStrongRef := strong, pendingStrongRef := pendingStrong, localStrongRefs := localStrong
        hasWeakRef := weak, pendingWeakRef := pendingWeak, localWeakRefs := localWeak }) ∨
      (node.refs = [] ∧ node.internalStrongRefs = 0 ∧ node.localStrongRefs = 0 ∧
        node.localWeakRefs = 0 ∧ s' = s.freeNode .threadRead (some p) n node) ∨
      s' = s.listDel (.node n)) := by
  obtain ⟨node, hn, h⟩ := bind_eq_ok.mp h
  rw [node_eq_ok] at hn
  refine ⟨node, hn, ?_⟩
  dsimp only at h
  split at h
  · cases h
    exact .inl ⟨_, _, _, _, _, _, rfl⟩
  split at h
  · cases h
    exact .inl ⟨_, _, _, _, _, _, rfl⟩
  split at h
  · cases h
    exact .inl ⟨_, _, _, _, _, _, rfl⟩
  split at h
  · cases h
    exact .inl ⟨_, _, _, _, _, _, rfl⟩
  split at h
  next hnone =>
    cases h
    simp only [Bool.and_eq_true, Bool.not_eq_true', Bool.or_eq_false_iff, decide_eq_false_iff_not,
      not_or, not_not] at hnone
    obtain ⟨⟨⟨hrefs, hweak⟩, hinternal, hlocal⟩, -⟩ := hnone
    exact .inr (.inl ⟨hrefs, hinternal, hlocal, hweak, rfl⟩)
  next =>
    cases h
    exact .inr (.inr rfl)

theorem senderNode_keeps {Inv : Driver → Prop} (h : Inv s)
    (hnew : ∀ {n s'}, binderNewNode s p ptr cookie kzalloc = (n, s') → Inv s')
    (hflag : ∀ {s n}, Inv s → Inv (s.modifyNode n fun node => { node with acceptFds := acceptFds }))
    (he : senderNode s p ptr cookie acceptFds kzalloc = (n, s')) : Inv s' := by
  unfold senderNode at he
  split at he
  · cases he
    exact h
  · split at he
    next hs =>
      cases he
      exact hnew hs
    next hs =>
      cases he
      exact hflag (hnew hs)

theorem translateBinder_ok (h : translateBinder s p t target ptr cookie strong acceptFds
      kzallocNode kzallocRef = .ok (object, s')) :
    ∃ n s₀, senderNode s p ptr cookie acceptFds kzallocNode = (n, s₀) ∧ (s' = s₀ ∨
      ∃ m r s₁, n = some m ∧ binderGetRefForNode s₀ target m kzallocRef = .ok (r, s₁) ∧ (s' = s₁ ∨
        ∃ r' ret, r = some r' ∧ binderIncRef s₁ r' strong (some (.thread t)) = .ok (ret, s'))) := by
  unfold translateBinder at h
  split at h
  next hsender =>
    cases h
    exact ⟨_, _, hsender, .inl rfl⟩
  next n s₀ hsender =>
    refine ⟨_, _, hsender, ?_⟩
    obtain ⟨node, -, h⟩ := bind_eq_ok.mp h
    split at h
    · cases h
      exact .inl rfl
    · obtain ⟨⟨r, s₁⟩, hs₁, h⟩ := bind_eq_ok.mp h
      refine .inr ⟨n, r, s₁, rfl, hs₁, ?_⟩
      cases r with
      | none =>
        cases h
        exact .inl rfl
      | some r =>
        obtain ⟨⟨ret, s₂⟩, hs₂, h⟩ := bind_eq_ok.mp h
        cases h
        exact .inr ⟨r, ret, rfl, hs₂⟩

/-- Only the death requests, their items and the requests of references can change. -/
inductive DeathStep (s : Driver) : Driver → Prop where
  | mk {refs deaths works returned nextId}
      (refs_eq : refs = s.refs ∨ ∃ r ref death, s.refs r = some ref ∧
        refs = update s.refs r (some { ref with death := death }))
      (works_mem : ∀ x ∈ works, x ∈ s.works ∨ ∃ q d, x = (q, .death d))
      (le_nextId : s.nextId ≤ nextId) :
    DeathStep s { s with
      refs := refs, deaths := deaths, works := works, returned := returned, nextId := nextId }

namespace DeathStep

theorem refl : DeathStep s s := .mk (.inl rfl) (fun _ hx => .inl hx) le_rfl

theorem procNodes_eq (h : DeathStep s s') : s'.procNodes = s.procNodes := by
  cases h
  rfl

theorem mem_addTail {l l' : List (Queue × Work)} (hl : ∀ x ∈ l, x ∈ l') :
    ∀ x ∈ l ++ [(q, .death d)], x ∈ l' ∨ ∃ q d, x = (q, .death d) := by
  intro x hx
  rw [mem_append, mem_singleton] at hx
  exact hx.imp (hl x) fun hx => ⟨q, d, hx⟩

theorem requestDeath (h : requestDeath s p t target cookie kzalloc = .ok s') : DeathStep s s' := by
  unfold Binder.requestDeath at h
  split at h
  · cases h
    exact .refl
  · obtain ⟨ref, hr, h⟩ := bind_eq_ok.mp h
    rw [ref_eq_ok] at hr
    split at h
    · cases h
      exact .refl
    · obtain ⟨node, -, h⟩ := bind_eq_ok.mp h
      split at h <;> cases h
      · exact .mk (.inr ⟨_, _, _, hr, rfl⟩) (mem_addTail fun _ hx => hx) (Nat.le_succ _)
      · exact .mk (.inr ⟨_, _, _, hr, rfl⟩) (fun _ hx => .inl hx) (Nat.le_succ _)

theorem clearDeath (h : clearDeath s p t target cookie = .ok s') : DeathStep s s' := by
  unfold Binder.clearDeath at h
  split at h
  · cases h
    exact .refl
  · obtain ⟨ref, hr, h⟩ := bind_eq_ok.mp h
    rw [ref_eq_ok] at hr
    split at h
    · cases h
      exact .refl
    · split at h
      · cases h
      · split at h
        · cases h
          exact .refl
        · dsimp only at h
          split at h
          · cases h
            exact .mk (.inr ⟨_, _, _, hr, rfl⟩) (mem_addTail fun _ hx => hx) le_rfl
          · split at h <;> cases h
            exact .mk (.inr ⟨_, _, _, hr, rfl⟩) (fun _ hx => .inl hx) le_rfl

theorem deadBinderDone (h : deadBinderDone s p t cookie = .ok s') : DeathStep s s' := by
  unfold Binder.deadBinderDone at h
  split at h
  · cases h
    exact .refl
  · split at h
    · cases h
    · dsimp only at h
      split at h <;> cases h
      · exact .mk (.inl rfl) (mem_addTail fun _ hx => mem_of_mem_filter hx) le_rfl
      · exact .mk (.inl rfl) (fun _ hx => .inl (mem_of_mem_filter hx)) le_rfl

theorem readDeathWork (h : readDeathWork s p d = .ok s') : DeathStep s s' := by
  unfold Binder.readDeathWork at h
  split at h
  · cases h
  · split at h <;> cases h
    · exact .mk (.inl rfl) (fun _ hx => .inl (mem_of_mem_filter hx)) le_rfl
    · refine .mk (.inl rfl) ?_ le_rfl
      intro x hx
      obtain rfl | hx := mem_cons.mp hx
      · exact .inr ⟨_, _, rfl⟩
      · exact .inl (mem_of_mem_filter hx)

theorem notifyDeath (h : notifyDeath s r = .ok s') : DeathStep s s' := by
  obtain ⟨ref, -, h⟩ := bind_eq_ok.mp h
  split at h
  · cases h
    exact .refl
  · split at h
    · cases h
    · split at h <;> cases h
      exact .mk (.inl rfl) (mem_addTail fun _ hx => hx) le_rfl

end DeathStep

/-- An invariant that the counting functions keep, whoever calls them, up to the one increment of a
reference that a command can do and after which `Inv'` holds. -/
structure Stable (Inv Inv' : Driver → Prop) : Prop where
  weaken : ∀ {s}, Inv s → Inv' s
  incNode : ∀ {s n strong ret s'}, Inv s →
    binderIncNode s n strong false none = .ok (ret, s') → Inv s'
  decNode : ∀ {s n strong s'}, Inv s → binderDecNode s n strong false = .ok s' → Inv s'
  incRef : ∀ {s r strong ret s'}, Inv s → binderIncRef s r strong none = .ok (ret, s') → Inv' s'
  decRef : ∀ {s r strong ret s'}, Inv s → binderDecRef s r strong = .ok (ret, s') → Inv s'
  getRefForNode : ∀ {s p n kzalloc r s'}, Inv s → p ∈ s.procs →
    binderGetRefForNode s p n kzalloc = .ok (r, s') → Inv s'
  pending : ∀ {s n node strong weak}, Inv s → s.nodes n = some node →
    Inv (s.setNode n { node with pendingStrongRef := strong, pendingWeakRef := weak })

theorem guarded {Inv : Driver → Prop} [Decidable c] {x : Result Driver} (h : Inv s)
    (hx : c → x = .ok s' → Inv s') (he : (if c then x else .ok s) = .ok s') : Inv s' := by
  split at he
  next hc => exact hx hc he
  next =>
    cases he
    exact h

theorem Driver.calls_iff {s : Driver} :
    s.calls p t = true ↔ p ∈ s.procs ∧ ∃ thread, s.threads t = some thread ∧ thread.proc = p := by
  simp only [Driver.calls]
  cases s.threads t <;> simp

namespace Stable

variable {Inv Inv' : Driver → Prop} {s s' : Driver}

section Commands

variable (H : Stable Inv Inv') (h : Inv s)
include H h

theorem incRef_map (he : (binderIncRef s r strong none).map Prod.snd = .ok s') : Inv' s' := by
  obtain ⟨⟨ret, s₁⟩, hs₁, rfl⟩ := map_eq_ok.mp he
  exact H.incRef h hs₁

theorem decRef_map (he : (binderDecRef s r strong).map Prod.snd = .ok s') : Inv s' := by
  obtain ⟨⟨ret, s₁⟩, hs₁, rfl⟩ := map_eq_ok.mp he
  exact H.decRef h hs₁

theorem incRefs (hp : p ∈ s.procs) (he : incRefs s p target strong kzalloc = .ok s') : Inv' s' := by
  unfold Binder.incRefs at he
  split at he
  · obtain ⟨⟨r, s₁⟩, hs₁, he⟩ := bind_eq_ok.mp he
    cases r with
    | none => cases he
    | some r => exact H.incRef_map (H.getRefForNode h hp hs₁) he
  · split at he
    · cases he
      exact H.weaken h
    · exact H.incRef_map h he

theorem decRefs (he : decRefs s p target strong = .ok s') : Inv s' := by
  unfold Binder.decRefs at he
  split at he
  · cases he
    exact h
  · exact H.decRef_map h he

theorem incRefsDone (he : incRefsDone s p ptr cookie strong = .ok s') : Inv s' := by
  unfold Binder.incRefsDone at he
  split at he
  · cases he
    exact h
  · obtain ⟨node, hn, he⟩ := bind_eq_ok.mp he
    rw [node_eq_ok] at hn
    split at he
    · cases he
      exact h
    · split at he <;> split at he
      · cases he
        exact h
      · exact H.decNode (H.pending h hn) he
      · cases he
        exact h
      · exact H.decNode (H.pending h hn) he

theorem translateHandle (hp : target ∈ s.procs)
    (he : translateHandle s p target handle strong kzallocRef = .ok (object, s')) : Inv' s' := by
  unfold Binder.translateHandle at he
  split at he
  · cases he
    exact H.weaken h
  · obtain ⟨ref, -, he⟩ := bind_eq_ok.mp he
    obtain ⟨node, -, he⟩ := bind_eq_ok.mp he
    split at he
    · obtain ⟨⟨ret, s₁⟩, hs₁, he⟩ := bind_eq_ok.mp he
      cases he
      exact H.weaken (H.incNode h hs₁)
    · obtain ⟨⟨r, s₁⟩, hs₁, he⟩ := bind_eq_ok.mp he
      cases r with
      | none =>
        cases he
        exact H.weaken (H.getRefForNode h hp hs₁)
      | some r =>
        obtain ⟨⟨ret, s₂⟩, hs₂, he⟩ := bind_eq_ok.mp he
        cases he
        exact H.incRef (H.getRefForNode h hp hs₁) hs₂

theorem releaseObject (he : releaseObject s p strong object = .ok s') : Inv s' := by
  cases object with
  | binder ptr cookie =>
    simp only [Binder.releaseObject] at he
    split at he
    · cases he
      exact h
    · exact H.decNode h he
  | handle desc =>
    simp only [Binder.releaseObject] at he
    split at he
    · cases he
      exact h
    · exact H.decRef_map h he

theorem holdTarget (he : holdTarget s p handle = .ok s') : Inv s' := by
  obtain ⟨n, -, he⟩ := bind_eq_ok.mp he
  cases n with
  | none =>
    cases he
    exact h
  | some n =>
    obtain ⟨node, -, he⟩ := bind_eq_ok.mp he
    split at he
    · cases he
      exact h
    · obtain ⟨⟨ret, s₁⟩, hs₁, he⟩ := bind_eq_ok.mp he
      cases he
      exact H.incNode h hs₁

end Commands

end Stable

structure StepStable (Inv Inv' : Driver → Prop) (Ok : Driver → DriverOp → Prop) : Prop
    extends Stable Inv Inv' where
  binderOpen : ∀ {s}, Inv s → Inv (binderOpen s)
  getThread : ∀ {s p}, Inv s → p ∈ s.procs → Inv (binderGetThread s p)
  enterLooper : ∀ {s p t}, Inv s → s.calls p t = true →
    Inv { s with threads := Function.update s.threads t (some ⟨p, true⟩) }
  setContextMgr : ∀ {s p t kzalloc}, Inv s → s.calls p t = true → Inv (setContextMgr s p kzalloc)
  translateBinder : ∀ {s p t target ptr cookie strong acceptFds kzallocNode kzallocRef object s'},
    Inv s → s.calls p t = true → target ∈ s.procs →
      translateBinder s p t target ptr cookie strong acceptFds kzallocNode kzallocRef
        = .ok (object, s') → Inv' s'
  requestDeath : ∀ {s p t target cookie kzalloc s'}, Inv s → s.calls p t = true →
    requestDeath s p t target cookie kzalloc = .ok s' → Inv s'
  clearDeath : ∀ {s p t target cookie s'}, Inv s → s.calls p t = true →
    clearDeath s p t target cookie = .ok s' → Inv s'
  deadBinderDone : ∀ {s p t cookie s'}, Inv s → s.calls p t = true →
    deadBinderDone s p t cookie = .ok s' → Inv s'
  readWork : ∀ {s p t w s'}, Inv s → s.calls p t = true → readWork s p t w = .ok s' → Inv s'
  threadExit : ∀ {s p t}, Inv s → s.calls p t = true → Ok s (.threadExit p t) →
    Inv (binderFreeThread p s t)
  release : ∀ {s p s'}, Inv s → p ∈ s.procs → binderDeferredRelease s p = .ok s' → Inv s'

theorem StepStable.step {Inv Inv' : Driver → Prop} (H : StepStable Inv Inv' Ok) (h : Inv s)
    (hok : Ok s op) (he : driverStep s op = .ok s') : Inv' s' := by
  cases op with
  | binderOpen =>
    cases he
    exact H.weaken (H.binderOpen h)
  | getThread p =>
    refine H.weaken (guarded h ?_ he)
    rintro hp ⟨⟩
    exact H.getThread h hp
  | enterLooper p t =>
    refine H.weaken (guarded h ?_ he)
    rintro hc ⟨⟩
    exact H.enterLooper h hc
  | setContextMgr p t kzalloc =>
    refine H.weaken (guarded h ?_ he)
    rintro hc ⟨⟩
    exact H.setContextMgr h hc
  | incRefs p t target strong kzalloc =>
    exact guarded (H.weaken h) (fun hc => H.incRefs h (Driver.calls_iff.mp hc).1) he
  | decRefs p t target strong => exact H.weaken (guarded h (fun _ => H.decRefs h) he)
  | incRefsDone p t ptr cookie strong => exact H.weaken (guarded h (fun _ => H.incRefsDone h) he)
  | translateBinder p t target ptr cookie strong acceptFds kzallocNode kzallocRef =>
    refine guarded (H.weaken h) ?_ he
    intro hc he
    rw [Bool.and_eq_true, decide_eq_true_eq] at hc
    obtain ⟨⟨object, s₁⟩, hs₁, rfl⟩ := map_eq_ok.mp he
    exact H.translateBinder h hc.1 hc.2 hs₁
  | translateHandle p t target handle strong kzallocRef =>
    refine guarded (H.weaken h) ?_ he
    intro hc he
    rw [Bool.and_eq_true, decide_eq_true_eq] at hc
    obtain ⟨⟨object, s₁⟩, hs₁, rfl⟩ := map_eq_ok.mp he
    exact H.translateHandle h hc.2 hs₁
  | releaseObject p t strong object => exact H.weaken (guarded h (fun _ => H.releaseObject h) he)
  | holdTarget p t handle => exact H.weaken (guarded h (fun _ => H.holdTarget h) he)
  | dropTarget p t n => exact H.weaken (guarded h (fun _ => H.decNode h) he)
  | requestDeath p t target cookie kzalloc => exact H.weaken (guarded h (H.requestDeath h) he)
  | clearDeath p t target cookie => exact H.weaken (guarded h (H.clearDeath h) he)
  | deadBinderDone p t cookie => exact H.weaken (guarded h (H.deadBinderDone h) he)
  | readWork p t w => exact H.weaken (guarded h (H.readWork h) he)
  | threadExit p t =>
    refine H.weaken (guarded h ?_ he)
    rintro hc ⟨⟩
    exact H.threadExit h hc hok
  | release p => exact H.weaken (guarded h (H.release h) he)

end SpicaKernel.Binder

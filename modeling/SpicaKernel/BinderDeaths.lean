import SpicaKernel.BinderOwnership

namespace SpicaKernel.Binder
open Function
set_option autoImplicit true

theorem SameBut.mem_death (h : SameBut n l l') : (q, .death d) ∈ l' ↔ (q, .death d) ∈ l := by
  have hmem : ∀ l : List (Queue × Work),
      (q, Work.death d) ∈ l.filter (fun x => x.2 ≠ .node n) ↔ (q, .death d) ∈ l := by
    simp [List.mem_filter]
  rw [← hmem l', ← hmem l, h]

/-- The item of the death that a reference asks about. The owners of the `pending` references are
about to be told; `lost` allows for answers that went away with a thread. -/
structure Asked (lost : Prop) (pending : List Nat) (s : Driver) (r p n d : Nat) : Prop where
  live : ∃ death, s.deaths d = some death
  placed : ∀ q, (q, .death d) ∈ s.works →
    (∀ death, s.deaths d = some death → death.type = some .deadBinder) ∧
      (s.Todo p q ∨ q = .delivered p)
  quiet : ∀ node, s.nodes n = some node → (node.proc ≠ none ∨ r ∈ pending) →
    ∀ q, (q, .death d) ∉ s.works
  told : ∀ node, s.nodes n = some node → node.proc = none → r ∉ pending → p ∈ s.procs →
    lost ∨ d ∈ s.returned ∨ ∃ q, s.Todo p q ∧ (q, .death d) ∈ s.works

/-- Any item of a death, asked about or not. -/
structure Filed (s : Driver) (d : Nat) : Prop where
  live : ∀ q, (q, .death d) ∈ s.works → ∃ death, s.deaths d = some death
  once : ∀ q q', (q, .death d) ∈ s.works → (q', .death d) ∈ s.works → q = q'
  delivered : ∀ p, (.delivered p, .death d) ∈ s.works → d ∈ s.returned

structure Issued (s : Driver) : Prop where
  owner : ∀ r ref, s.refs r = some ref → ref.proc < s.nextId
  proc : ∀ p ∈ s.procs, p < s.nextId
  death : ∀ d, s.nextId ≤ d → s.deaths d = none

structure DeathsOk (lost : Prop) (pending : List Nat) (s : Driver) : Prop where
  asked : ∀ {r ref d}, s.refs r = some ref → ref.death = some d →
    Asked lost pending s r ref.proc ref.node d
  unique : ∀ {r ref r' ref' d}, s.refs r = some ref → s.refs r' = some ref' →
    ref.death = some d → ref'.death = some d → r = r'
  filed : ∀ d, Filed s d
  issued : Issued s

theorem Filed.congr (h : Filed s d)
    (hworks : ∀ q, (q, .death d) ∈ s'.works → (q, .death d) ∈ s.works)
    (hdeaths : s'.deaths d = s.deaths d) (hreturned : d ∈ s.returned → d ∈ s'.returned) :
    Filed s' d where
  live q hq := hdeaths ▸ h.live q (hworks q hq)
  once q q' hq hq' := h.once q q' (hworks q hq) (hworks q' hq')
  delivered p hq := hreturned (h.delivered p (hworks _ hq))

/-- The item `d` of a reference to the node `n` that the process `p` holds stays as it is. -/
structure ItemFrame (s s' : Driver) (p n d : Nat) : Prop where
  works : ∀ q, (q, .death d) ∈ s'.works ↔ (q, .death d) ∈ s.works
  deaths : s'.deaths d = s.deaths d
  returned : d ∈ s.returned → d ∈ s'.returned
  todo : ∀ q, (q, .death d) ∈ s.works → s.Todo p q → s'.Todo p q
  nodes : ∀ node', s'.nodes n = some node' → ∃ node, s.nodes n = some node ∧ node'.proc = node.proc
  procs : p ∈ s'.procs → p ∈ s.procs

theorem Asked.congr (h : Asked lost pending s r p n d) (hf : ItemFrame s s' p n d)
    (hpending : r ∈ pending' ↔ r ∈ pending) : Asked lost pending' s' r p n d where
  live := hf.deaths ▸ h.live
  placed q hq := by
    have hq' := (hf.works q).mp hq
    rw [hf.deaths]
    exact (h.placed q hq').imp id (.imp (hf.todo q hq') id)
  quiet node' hn hcase q hq := by
    obtain ⟨node, hn, hproc⟩ := hf.nodes node' hn
    rw [hproc, hpending] at hcase
    exact h.quiet node hn hcase q ((hf.works q).mp hq)
  told node' hn hdead hout hlive := by
    obtain ⟨node, hn, hproc⟩ := hf.nodes node' hn
    rw [hproc] at hdead
    rw [hpending] at hout
    refine (h.told node hn hdead hout (hf.procs hlive)).imp id (.imp hf.returned ?_)
    rintro ⟨q, htodo, hq⟩
    exact ⟨q, hf.todo q hq htodo, (hf.works q).mpr hq⟩

structure DeathFrame (s s' : Driver) : Prop where
  refs : ∀ r ref', s'.refs r = some ref' → ref'.death = none ∧ ref'.proc < s'.nextId ∨
    ∃ ref, s.refs r = some ref ∧ ref'.proc = ref.proc ∧ ref'.node = ref.node ∧
      ref'.death = ref.death
  nodes : ∀ r ref node', s.refs r = some ref → s'.nodes ref.node = some node' →
    ∃ node, s.nodes ref.node = some node ∧ node'.proc = node.proc
  works : ∀ q d, (q, .death d) ∈ s'.works ↔ (q, .death d) ∈ s.works
  deaths : s'.deaths = s.deaths
  returned : s'.returned = s.returned
  threads : ∀ t thread, s.threads t = some thread →
    ∃ thread', s'.threads t = some thread' ∧ thread'.proc = thread.proc
  procs : ∀ p ∈ s'.procs, p ∈ s.procs ∨ s.nextId ≤ p ∧ p < s'.nextId
  nextId : s.nextId ≤ s'.nextId

theorem DeathFrame.todo (h : DeathFrame s s') (htodo : s.Todo p q) : s'.Todo p q := by
  obtain rfl | ⟨t, thread, rfl, hthread, hproc⟩ := htodo
  · exact .inl rfl
  · obtain ⟨thread', hthread', hsame⟩ := h.threads t thread hthread
    exact .inr ⟨t, thread', rfl, hthread', hsame.trans hproc⟩

theorem DeathFrame.old_ref (h : DeathFrame s s') (hr : s'.refs r = some ref')
    (hd : ref'.death = some d) : ∃ ref, s.refs r = some ref ∧ ref'.proc = ref.proc ∧
      ref'.node = ref.node ∧ ref.death = some d := by
  obtain ⟨hnone, -⟩ | ⟨ref, hr', hproc, hnode, hdeath⟩ := h.refs r ref' hr
  · rw [hnone] at hd
    cases hd
  · exact ⟨ref, hr', hproc, hnode, hdeath ▸ hd⟩

theorem DeathsOk.frame (h : DeathsOk lost pending s) (hf : DeathFrame s s') :
    DeathsOk lost pending s' where
  asked hr hd := by
    obtain ⟨ref, hr, hproc, hnode, hd⟩ := hf.old_ref hr hd
    rw [hproc, hnode]
    refine (h.asked hr hd).congr ⟨fun q => hf.works q _, by rw [hf.deaths], ?_,
      fun _ _ htodo => hf.todo htodo, fun node' => hf.nodes _ ref node' hr, fun hlive => ?_⟩ .rfl
    · rw [hf.returned]
      exact id
    · obtain hp | ⟨hfresh, -⟩ := hf.procs _ hlive
      · exact hp
      · exact absurd (h.issued.owner _ ref hr) hfresh.not_gt
  unique hr hr' hd hd' := by
    obtain ⟨ref₁, hr, -, -, hd⟩ := hf.old_ref hr hd
    obtain ⟨ref₂, hr', -, -, hd'⟩ := hf.old_ref hr' hd'
    exact h.unique hr hr' hd hd'
  filed d := (h.filed d).congr (fun q => (hf.works q d).mp) (by rw [hf.deaths])
    (hf.returned ▸ id)
  issued :=
    { owner := fun r ref' hr => by
        obtain ⟨-, hlt⟩ | ⟨ref, hr, hproc, -⟩ := hf.refs r ref' hr
        · exact hlt
        · exact hproc ▸ (h.issued.owner r ref hr).trans_le hf.nextId
      proc := fun p hp => by
        obtain hp | ⟨-, hlt⟩ := hf.procs p hp
        · exact (h.issued.proc p hp).trans_le hf.nextId
        · exact hlt
      death := fun d hd => hf.deaths ▸ h.issued.death d (hf.nextId.trans hd) }

namespace DeathFrame

variable {s s' : Driver}

theorem of_tables
    (hrefs : ∀ r ref', s'.refs r = some ref' → ref'.death = none ∧ ref'.proc < s'.nextId ∨
      ∃ ref, s.refs r = some ref ∧ ref'.proc = ref.proc ∧ ref'.node = ref.node ∧
        ref'.death = ref.death)
    (hnodes : ∀ r ref node', s.refs r = some ref → s'.nodes ref.node = some node' →
      ∃ node, s.nodes ref.node = some node ∧ node'.proc = node.proc)
    (hworks : ∀ q d, (q, .death d) ∈ s'.works ↔ (q, .death d) ∈ s.works)
    (hdeaths : s'.deaths = s.deaths) (hreturned : s'.returned = s.returned)
    (hthreads : s'.threads = s.threads) (hprocs : s'.procs = s.procs)
    (hnext : s.nextId ≤ s'.nextId) : DeathFrame s s' where
  refs := hrefs
  nodes := hnodes
  works := hworks
  deaths := hdeaths
  returned := hreturned
  threads _ thread ht := ⟨thread, hthreads ▸ ht, rfl⟩
  procs _ hp := .inl (hprocs ▸ hp)
  nextId := hnext

theorem touch {works : List (Queue × Work)} (hn : s.nodes n = some node)
    (hproc : node'.proc = node.proc) (hworks : SameBut n s.works works) :
    DeathFrame s (s.touch n node' works) := by
  refine of_tables (fun _ ref hr => .inr ⟨ref, hr, rfl, rfl, rfl⟩) ?_ (fun _ _ => hworks.mem_death)
    rfl rfl rfl rfl le_rfl
  intro _ ref node₁ _ hn₁
  obtain ⟨heq, rfl⟩ | ⟨-, hn₁⟩ := update_some_iff.mp hn₁
  · exact ⟨node, heq ▸ hn, hproc⟩
  · exact ⟨node₁, hn₁, rfl⟩

theorem rest (hrefs : s'.refs = s.refs)
    (hnodes : ∀ m node, s'.nodes m = some node → s.nodes m = some node)
    (hworks : ∀ q d, (q, .death d) ∈ s'.works ↔ (q, .death d) ∈ s.works)
    (hdeaths : s'.deaths = s.deaths) (hreturned : s'.returned = s.returned)
    (hthreads : s'.threads = s.threads) (hprocs : s'.procs = s.procs)
    (hnext : s.nextId ≤ s'.nextId) : DeathFrame s s' :=
  of_tables (fun _ ref hr => .inr ⟨ref, hrefs ▸ hr, rfl, rfl, rfl⟩)
    (fun _ _ node _ hn => ⟨node, hnodes _ _ hn, rfl⟩) hworks hdeaths hreturned hthreads hprocs hnext

theorem freeNode : DeathFrame s (s.freeNode site tree n node) :=
  rest rfl (fun _ _ hn => (update_none_iff.mp hn).2) (fun _ _ => SameBut.filter.mem_death)
    rfl rfl rfl rfl le_rfl

theorem setRef (hr : s.refs r = some ref) (hproc : ref'.proc = ref.proc)
    (hnode : ref'.node = ref.node) (hdeath : ref'.death = ref.death) :
    DeathFrame s (s.setRef r ref') := by
  refine of_tables ?_ (fun _ _ node _ hn => ⟨node, hn, rfl⟩) (fun _ _ => .rfl)
    rfl rfl rfl rfl le_rfl
  intro x ref₁ hx
  obtain ⟨rfl, rfl⟩ | ⟨-, hx⟩ := update_some_iff.mp hx
  · exact .inr ⟨ref, hr, hproc, hnode, hdeath⟩
  · exact .inr ⟨ref₁, hx, rfl, rfl, rfl⟩

theorem insertRef (hn : s.nodes n = some node) (hp : p < s.nextId) :
    DeathFrame s (insertRef s p n desc node) := by
  refine of_tables ?_ ?_ (fun _ _ => .rfl) rfl rfl rfl rfl (Nat.le_succ _)
  · intro x ref₁ hx
    obtain ⟨-, rfl⟩ | ⟨-, hx⟩ := update_some_iff.mp hx
    · exact .inl ⟨rfl, Nat.lt_succ_of_lt hp⟩
    · exact .inr ⟨ref₁, hx, rfl, rfl, rfl⟩
  · intro _ ref node₁ _ hn₁
    obtain ⟨heq, rfl⟩ | ⟨-, hn₁⟩ := update_some_iff.mp hn₁
    · exact ⟨node, heq ▸ hn, rfl⟩
    · exact ⟨node₁, hn₁, rfl⟩

theorem insertNode (h : Accounts room s) : DeathFrame s (insertNode s p ptr cookie) := by
  refine of_tables (fun _ ref hr => .inr ⟨ref, hr, rfl, rfl, rfl⟩) ?_ (fun _ _ => .rfl)
    rfl rfl rfl rfl (Nat.le_succ _)
  intro _ ref node₁ hr hn₁
  have hne : ref.node ≠ s.nextId := by
    intro heq
    obtain ⟨node, hn, -⟩ := h.node_of_ref hr
    rw [heq, h.freshNode _ le_rfl] at hn
    cases hn
  simp only [Binder.insertNode, Driver.setNode, update_of_ne hne] at hn₁
  exact ⟨node₁, hn₁, rfl⟩

end DeathFrame

namespace DeathsOk

variable {s s' : Driver}

theorem mem_dropDeath : (q, .death d) ∈ dropDeath death l ↔ (q, .death d) ∈ l ∧ death ≠ some d := by
  cases death with
  | none => simp [dropDeath]
  | some d' => simp [dropDeath, @eq_comm _ d]

theorem dropRef (h : DeathsOk lost pending s) (hr : s.refs r = some ref) :
    DeathsOk lost pending { s.dropRef r ref with works := dropDeath ref.death s.works } := by
  have hold : ∀ {x ref'}, update s.refs r none x = some ref' → x ≠ r ∧ s.refs x = some ref' :=
    update_none_iff.mp
  have hdeaths : ∀ {d}, ref.death ≠ some d → (s.dropRef r ref).deaths d = s.deaths d := by
    intro d hd
    unfold Driver.dropRef
    cases hdeath : ref.death with
    | none => rfl
    | some d' =>
      rw [hdeath] at hd
      exact update_of_ne (fun heq => hd (by rw [heq])) _ _
  have hfree : ∀ {d}, ref.death = some d → (s.dropRef r ref).deaths d = none := by
    intro d hd
    simp [Driver.dropRef, hd]
  constructor
  case asked =>
    intro x ref' d hx hd
    obtain ⟨hne, hx⟩ := hold hx
    have hother : ref.death ≠ some d := fun heq => hne (h.unique hx hr hd heq)
    exact (h.asked hx hd).congr ⟨fun q => mem_dropDeath.trans (and_iff_left hother),
      hdeaths hother, id, fun _ _ => id, fun node hn => ⟨node, hn, rfl⟩, id⟩ .rfl
  case unique => exact fun hx hy => h.unique (hold hx).2 (hold hy).2
  case filed =>
    intro d
    by_cases heq : ref.death = some d
    · have hno : ∀ q, (q, .death d) ∉ dropDeath ref.death s.works :=
        fun q hq => (mem_dropDeath.mp hq).2 heq
      exact ⟨fun q hq => absurd hq (hno q), fun q _ hq => absurd hq (hno q),
        fun p hq => absurd hq (hno _)⟩
    · exact (h.filed d).congr (fun q hq => (mem_dropDeath.mp hq).1) (hdeaths heq) id
  case issued =>
    refine ⟨fun x ref' hx => h.issued.owner x ref' (hold hx).2, h.issued.proc, fun d hd => ?_⟩
    by_cases heq : ref.death = some d
    · exact hfree heq
    · exact (hdeaths heq).trans (h.issued.death d hd)

section Steps

variable (h : DeathsOk lost pending s)
include h

theorem incNode (he : binderIncNode s n strong internal q = .ok (ret, s')) :
    DeathsOk lost pending s' := by
  obtain ⟨node, works, hn, hsame, -, -, rfl⟩ := binderIncNode_ok he
  refine h.frame (.touch hn ?_ hsame)
  split <;> simp

theorem decNode (he : binderDecNode s n strong internal = .ok s') : DeathsOk lost pending s' := by
  obtain ⟨node, hn, ⟨works, hsame, -, rfl⟩ | ⟨-, -, -, -, rfl⟩⟩ := binderDecNode_ok he
  · exact h.frame (.touch hn (by simp) hsame)
  · exact h.frame .freeNode

theorem count (hr : s.refs r = some ref) (strong : Bool) (k : Int32) :
    DeathsOk lost pending (s.setRef r (ref.count strong k)) := by
  refine h.frame (.setRef hr ?_ ?_ ?_) <;> cases strong <;> rfl

theorem incRef (he : binderIncRef s r strong q = .ok (ret, s')) : DeathsOk lost pending s' := by
  obtain ⟨ref, hr, ⟨-, rfl⟩ | ⟨-, -, rfl⟩ | ⟨-, -, node, works, hn, hsame, -, rfl⟩⟩ :=
    binderIncRef_ok he
  · exact h
  · exact h.count hr strong 1
  · exact (h.frame (.touch hn (by simp) hsame)).count hr strong 1

theorem deleteRef (ha : Accounts room s)
    (he : binderDeleteRef s r = .ok s') : DeathsOk lost pending s' := by
  obtain ⟨ref, href, -⟩ := bind_eq_ok.mp he
  have hr := ref_eq_ok.mp href
  obtain ⟨node, hn, hmem⟩ := ha.node_of_ref hr
  obtain ⟨works, hsame, -, rfl | ⟨-, -, -, -, -, rfl⟩⟩ := binderDeleteRef_ok he hr hn hmem
  · exact (h.dropRef hr).frame (.touch hn rfl hsame)
  · exact (h.dropRef hr).frame
      (.rest rfl (fun _ _ hn => (update_none_iff.mp hn).2) (fun _ _ => hsame.mem_death)
        rfl rfl rfl rfl le_rfl)

theorem decRef (ha : Accounts room s)
    (he : binderDecRef s r strong = .ok (ret, s')) : DeathsOk lost pending s' := by
  obtain ⟨ref, href, -⟩ := bind_eq_ok.mp he
  have hr := ref_eq_ok.mp href
  obtain ⟨node, hn, hmem⟩ := ha.node_of_ref hr
  obtain ⟨-, -, rfl⟩ | ⟨hpos, -, works, hsame, -, hdone⟩ := binderDecRef_ok he hr hn hmem
  · exact h
  · have hproc : (node.afterDec ref strong).proc = node.proc := by
      unfold BinderNode.afterDec
      split <;> simp
    have hdec := (h.frame (.touch hn hproc hsame)).count hr strong (-1)
    split at hdone
    · exact hdec.deleteRef (ha.decCount hr hn hmem hpos works) hdone
    · rw [hdone]
      exact hdec

theorem setNode (hn : s.nodes n = some node)
    (hproc : node'.proc = node.proc) : DeathsOk lost pending (s.setNode n node') :=
  h.frame (.touch hn hproc .refl)

theorem getRefForNode (hp : p < s.nextId)
    (he : binderGetRefForNode s p n kzalloc = .ok (r, s')) : DeathsOk lost pending s' := by
  obtain ⟨-, rfl⟩ | ⟨-, -, -, -, -, -, rfl⟩ | ⟨node, hn, -, -, rfl⟩ := binderGetRefForNode_ok he
  · exact h
  · exact h
  · exact h.frame (.insertRef hn hp)

theorem newNode (ha : Accounts room s)
    (he : binderNewNode s p ptr cookie kzalloc = (n, s')) : DeathsOk lost pending s' := by
  unfold binderNewNode at he
  split at he <;> cases he
  · exact h
  · exact h.frame (.insertNode ha)

theorem modifyNode (hf : ∀ node, (f node).proc = node.proc) :
    DeathsOk lost pending (s.modifyNode n f) := by
  unfold Driver.modifyNode
  cases hn : s.nodes n with
  | none => rwa [Option.map_none, ← hn, update_eq_self]
  | some node => exact h.setNode hn (hf node)

theorem senderNode (ha : Accounts room s)
    (he : senderNode s p ptr cookie acceptFds kzalloc = (n, s')) : DeathsOk lost pending s' :=
  senderNode_keeps h (h.newNode ha) (fun h => h.modifyNode fun _ => rfl) he

end Steps

end DeathsOk

open List Option

namespace DeathsOk

variable {s s' : Driver}

theorem unpend (h : DeathsOk lost (r :: pending) s)
    (halive : ∀ ref d node, s.refs r = some ref → ref.death = some d →
      s.nodes ref.node = some node → node.proc ≠ none) : DeathsOk lost pending s := by
  refine ⟨fun {x ref d} hx hd => ?_, h.unique, h.filed, h.issued⟩
  have hasked := h.asked hx hd
  refine ⟨hasked.live, hasked.placed, ?_, fun node hn hdead hout => ?_⟩
  · exact fun node hn hcase => hasked.quiet node hn (hcase.imp id (by simp [·]))
  · refine hasked.told node hn hdead ?_
    rw [mem_cons, not_or]
    refine ⟨?_, hout⟩
    rintro rfl
    exact halive ref d node hx hd hn hdead

theorem lt_nextId (h : DeathsOk lost pending s) (hlive : ∃ death, s.deaths d = some death) :
    d < s.nextId := by
  obtain ⟨death, hdeath⟩ := hlive
  by_contra hge
  rw [h.issued.death d (by omega)] at hdeath
  cases hdeath

theorem request (h : DeathsOk lost pending s) (hr : s.refs r = some ref)
    (death : BinderRefDeath) : DeathsOk lost (r :: pending) { s with
      refs := update s.refs r (some { ref with death := some s.nextId })
      deaths := update s.deaths s.nextId (some death)
      nextId := s.nextId + 1 } := by
  have hfresh : s.deaths s.nextId = none := h.issued.death _ le_rfl
  have hunused : ∀ q, (q, .death s.nextId) ∉ s.works := by
    intro q hq
    obtain ⟨death', hdeath'⟩ := (h.filed _).live q hq
    exact ne_of_none hfresh hdeath' rfl
  have hcase : ∀ {x ref' d},
      update s.refs r (some { ref with death := some s.nextId }) x = some ref' →
      ref'.death = some d →
      x = r ∧ d = s.nextId ∨ x ≠ r ∧ d ≠ s.nextId ∧ s.refs x = some ref' := by
    intro x ref' d hx hd
    obtain ⟨heq, rfl⟩ | ⟨hne, hx⟩ := update_some_iff.mp hx
    · cases hd
      exact .inl ⟨heq, rfl⟩
    · exact .inr ⟨hne, (h.lt_nextId (h.asked hx hd).live).ne, hx⟩
  constructor
  case asked =>
    intro x ref' d hx hd
    obtain ⟨rfl, rfl⟩ | ⟨hxr, hne, hx⟩ := hcase hx hd
    · exact ⟨⟨death, update_self ..⟩, fun q hq => absurd hq (hunused q), fun _ _ _ => hunused,
        fun _ _ _ hout => absurd mem_cons_self hout⟩
    · refine (h.asked hx hd).congr ⟨fun _ => .rfl, update_of_ne hne _ _, id, fun _ _ => id,
        fun node hn => ⟨node, hn, rfl⟩, id⟩ ?_
      rw [mem_cons, or_iff_right hxr]
  case unique =>
    intro x ref₁ y ref₂ d hx hy hd hd'
    obtain ⟨rfl, rfl⟩ | ⟨-, hne, hx⟩ := hcase hx hd
    · obtain ⟨rfl, -⟩ | ⟨-, hne, -⟩ := hcase hy hd'
      · rfl
      · exact absurd rfl hne
    · obtain ⟨-, heq⟩ | ⟨-, -, hy⟩ := hcase hy hd'
      · exact absurd heq hne
      · exact h.unique hx hy hd hd'
  case filed =>
    intro d
    by_cases heq : d = s.nextId
    · subst heq
      exact ⟨fun q hq => absurd hq (hunused q), fun q _ hq => absurd hq (hunused q),
        fun p hq => absurd hq (hunused _)⟩
    · exact (h.filed d).congr (fun _ hq => hq) (update_of_ne heq _ _) id
  case issued =>
    refine ⟨fun x ref' hx => ?_, fun p hp => Nat.lt_succ_of_lt (h.issued.proc p hp), ?_⟩
    · obtain ⟨-, rfl⟩ | ⟨-, hx⟩ := update_some_iff.mp hx
      · exact Nat.lt_succ_of_lt (h.issued.owner r ref hr)
      · exact Nat.lt_succ_of_lt (h.issued.owner x ref' hx)
    · intro d hd
      have hne : d ≠ s.nextId := (Nat.lt_of_succ_le hd).ne'
      exact (update_of_ne hne _ _).trans (h.issued.death d (Nat.le_of_succ_le hd))

/-- Only the item and the record of `d` change, and those who ask about it find it in order. -/
theorem change (h : DeathsOk lost pending s) (hd : d < s.nextId)
    (hpending : ∀ {r ref d'}, s.refs r = some ref → ref.death = some d' → d' ≠ d →
      (r ∈ pending' ↔ r ∈ pending))
    (hworks : ∀ q d', d' ≠ d → ((q, .death d') ∈ works ↔ (q, .death d') ∈ s.works))
    (hdeaths : ∀ d', d' ≠ d → deaths d' = s.deaths d')
    (hreturned : ∀ d' ∈ s.returned, d' ∈ returned)
    (hfiled : Filed { s with works := works, deaths := deaths, returned := returned } d)
    (hasked : ∀ {r ref}, s.refs r = some ref → ref.death = some d → Asked lost pending'
      { s with works := works, deaths := deaths, returned := returned } r ref.proc ref.node d) :
    DeathsOk lost pending' { s with works := works, deaths := deaths, returned := returned } := by
  constructor
  case asked =>
    intro r ref d' hr hd'
    by_cases heq : d' = d
    · subst heq
      exact hasked hr hd'
    · exact (h.asked hr hd').congr ⟨fun q => hworks q d' heq, hdeaths d' heq, hreturned d',
        fun _ _ => id, fun node hn => ⟨node, hn, rfl⟩, id⟩ (hpending hr hd' heq)
  case unique => exact h.unique
  case filed =>
    intro d'
    by_cases heq : d' = d
    · exact heq ▸ hfiled
    · exact (h.filed d').congr (fun q => (hworks q d' heq).mp) (hdeaths d' heq) (hreturned d')
  case issued =>
    refine ⟨h.issued.owner, h.issued.proc, fun d' hd' => ?_⟩
    exact (hdeaths d' (hd.trans_le hd').ne').trans (h.issued.death d' hd')

theorem mem_addTail_ne {l : List (Queue × Work)} (hne : d' ≠ d) :
    (q', .death d') ∈ l ++ [(q, .death d)] ↔ (q', .death d') ∈ l := by
  simp [hne]

theorem mem_addTail_self {l : List (Queue × Work)} (hno : ∀ q, (q, .death d) ∉ l)
    (hq : (q', .death d) ∈ l ++ [(q, .death d)]) : q' = q := by
  rw [mem_append, mem_singleton, Prod.mk.injEq] at hq
  exact hq.elim (absurd · (hno q')) And.left

theorem todo_ne_delivered (h : s.Todo p q) : q ≠ .delivered p' := by
  rintro rfl
  obtain h | ⟨_, _, h, -⟩ := h <;> cases h

/-- An item at the end of a list that is to be read, where there was none before. -/
theorem filed_addTail (hno : ∀ q, (q, .death d) ∉ l) (htodo : s.Todo p q)
    (hdeath : ∃ death, s'.deaths d = some death)
    (hworks : s'.works = l ++ [(q, .death d)]) : Filed s' d := by
  have hat : ∀ {q'}, (q', .death d) ∈ s'.works → q' = q :=
    fun hq => mem_addTail_self hno (hworks ▸ hq)
  refine ⟨fun _ _ => hdeath, fun q₁ q₂ h₁ h₂ => (hat h₁).trans (hat h₂).symm, fun p' hq => ?_⟩
  exact absurd (hat hq).symm (todo_ne_delivered htodo)

theorem notify (h : DeathsOk lost (r :: pending) s) (hr : s.refs r = some ref)
    (hd : ref.death = some d) (hn : s.nodes ref.node = some node) (hdead : node.proc = none)
    (hpending : r ∉ pending) (htodo : s.Todo ref.proc q) (death : BinderRefDeath)
    (htype : death.type = some .deadBinder) :
    DeathsOk lost pending ((s.setDeath d death).listAddTail q (.death d)) := by
  have hquiet : ∀ q', (q', .death d) ∉ s.works :=
    (h.asked hr hd).quiet node hn (.inr mem_cons_self)
  have hself : update s.deaths d (some death) d = some death := update_self ..
  refine h.change (h.lt_nextId (h.asked hr hd).live) (fun {x ref' d'} hx hd' hne => ?_)
    (fun _ _ => mem_addTail_ne) (fun d' hne => update_of_ne hne _ _) (fun _ hd => hd)
    (filed_addTail hquiet htodo ⟨death, hself⟩ rfl) (fun {x ref'} hx hd' => ?_)
  · have hxr : x ≠ r := by
      rintro rfl
      obtain rfl : ref = ref' := some.inj (hr.symm.trans hx)
      exact hne (some.inj (hd'.symm.trans hd))
    rw [mem_cons, or_iff_right hxr]
  · obtain rfl := h.unique hx hr hd' hd
    obtain rfl : ref = ref' := some.inj (hr.symm.trans hx)
    refine ⟨⟨death, hself⟩, fun q' hq => ⟨fun death' hdeath => ?_, ?_⟩, ?_, ?_⟩
    · exact some.inj (hself.symm.trans hdeath) ▸ htype
    · exact .inl (mem_addTail_self hquiet hq ▸ htodo)
    · intro node' hn' hcase
      obtain rfl : node = node' := some.inj (hn.symm.trans hn')
      exact hcase.elim (absurd hdead) (absurd · hpending)
    · exact fun _ _ _ _ _ => .inr (.inr ⟨q, htodo, mem_append_right _ mem_cons_self⟩)

theorem mem_listDel_death : (q, .death d') ∈ (s.listDel (.death d)).works ↔
    (q, .death d') ∈ s.works ∧ d' ≠ d := by
  simp [Driver.listDel]

/-- There is no item of `d` any more, and nobody asks about it who was not answered. -/
theorem unlink (h : DeathsOk lost pending s) (hd : d < s.nextId)
    (hdeaths : ∀ d', d' ≠ d → deaths d' = s.deaths d')
    (hasked : ∀ {r ref}, s.refs r = some ref → ref.death = some d →
      d ∈ s.returned ∧ ∃ death, deaths d = some death) :
    DeathsOk lost pending { s.listDel (.death d) with deaths := deaths } := by
  have hno : ∀ q, (q, .death d) ∉ (s.listDel (.death d)).works :=
    fun q hq => (mem_listDel_death.mp hq).2 rfl
  refine h.change hd (fun _ _ _ => .rfl) (fun _ _ hne => mem_listDel_death.trans (and_iff_left hne))
    hdeaths (fun _ hd => hd) ⟨fun q hq => absurd hq (hno q), fun q _ hq => absurd hq (hno q),
      fun p hq => absurd hq (hno _)⟩ fun hr hd => ?_
  obtain ⟨hreturned, hlive⟩ := hasked hr hd
  exact ⟨hlive, fun q hq => absurd hq (hno q), fun _ _ _ => hno,
    fun _ _ _ _ _ => .inr (.inl hreturned)⟩

theorem deliver (h : DeathsOk lost pending s) (hitem : (q, .death d) ∈ s.works)
    (htodo : s.Todo p q) : DeathsOk lost pending
      { (s.listDel (.death d)).listAdd (.delivered p) (.death d) with
        returned := d :: s.returned } := by
  have hmem : ∀ {q'}, (q', .death d) ∈ ((s.listDel (.death d)).listAdd (.delivered p)
      (.death d)).works → q' = .delivered p := by
    simp [Driver.listAdd, mem_listDel_death]
  have hlive := (h.filed d).live q hitem
  refine h.change (h.lt_nextId hlive) (fun _ _ _ => .rfl) (fun q' d' hne => ?_)
    (fun _ _ => rfl) (fun _ => mem_cons_of_mem _) ⟨fun _ _ => hlive, ?_, ?_⟩ fun hr hd => ?_
  · simp [Driver.listAdd, mem_listDel_death, hne]
  · exact fun q₁ q₂ h₁ h₂ => (hmem h₁).trans (hmem h₂).symm
  · exact fun _ _ => mem_cons_self
  · have hasked := h.asked hr hd
    refine ⟨hlive, fun q' hq => ⟨(hasked.placed q hitem).1, .inr ?_⟩, fun node hn hcase => ?_,
      fun _ _ _ _ _ => .inr (.inl mem_cons_self)⟩
    · obtain hplace | rfl := (hasked.placed q hitem).2
      · rw [hmem hq, htodo.unique hplace]
      · exact absurd rfl (todo_ne_delivered htodo)
    · exact absurd hitem (hasked.quiet node hn hcase q)

theorem mem_releaseWork : (q, w) ∈ (releaseWork s q₀).works ↔ (q, w) ∈ s.works ∧ q ≠ q₀ := by
  simp [releaseWork]

theorem release (h : DeathsOk lost pending s) (hok : lost ∨ ∀ r ref d, s.refs r = some ref →
      ref.death = some d → ref.proc ∈ s.procs → (q₀, .death d) ∉ s.works) :
    DeathsOk lost pending (releaseWork s q₀) := by
  have hsub : ∀ {q w}, (q, w) ∈ (releaseWork s q₀).works → (q, w) ∈ s.works :=
    fun hq => (mem_releaseWork.mp hq).1
  refine ⟨fun {r ref d} hr hd => ?_, h.unique, fun d => ?_, ⟨h.issued.1, h.issued.2, h.issued.3⟩⟩
  · have hasked := h.asked hr hd
    refine ⟨hasked.live, fun q hq => hasked.placed q (hsub hq),
      fun node hn hcase q hq => hasked.quiet node hn hcase q (hsub hq), ?_⟩
    intro node hn hdead hpending hlive
    obtain hlost | hret | ⟨q, htodo, hq⟩ := hasked.told node hn hdead hpending hlive
    · exact .inl hlost
    · exact .inr (.inl hret)
    · refine hok.imp id fun hno => .inr ⟨q, htodo, mem_releaseWork.mpr ⟨hq, ?_⟩⟩
      rintro rfl
      exact hno r ref d hr hd hlive hq
  · exact (h.filed d).congr (fun _ hq => hsub hq) rfl id

theorem release_dead (h : DeathsOk lost pending s) (hq₀ : ∀ p, s.Todo p q₀ → p ∉ s.procs)
    (hdelivered : ∀ p, q₀ ≠ .delivered p) : DeathsOk lost pending (releaseWork s q₀) := by
  refine h.release (.inr ?_)
  intro r ref d hr hd hlive hq
  obtain hplace | rfl := ((h.asked hr hd).placed q₀ hq).2
  · exact hq₀ _ hplace hlive
  · exact hdelivered _ rfl

theorem dropThread (h : DeathsOk lost pending s) (hno : ∀ w, (.thread t, w) ∉ s.works)
    (ts : Nat → List Nat) : DeathsOk lost pending
      { s with threads := update s.threads t none, procThreads := ts } := by
  refine ⟨fun hr hd => ?_, h.unique, fun d => (h.filed d).congr (fun _ => id) rfl id,
    ⟨h.issued.owner, h.issued.proc, h.issued.death⟩⟩
  refine (h.asked hr hd).congr ⟨fun _ => .rfl, rfl, id, ?_, fun node hn => ⟨node, hn, rfl⟩, id⟩ .rfl
  rintro q hq (rfl | ⟨t', thread, rfl, ht, hproc⟩)
  · exact .inl rfl
  · have hne : t' ≠ t := by
      rintro rfl
      exact hno _ hq
    exact .inr ⟨t', thread, rfl, (update_of_ne hne _ _).trans ht, hproc⟩

theorem freeThread (h : DeathsOk lost pending (releaseWork s (.thread t))) :
    DeathsOk lost pending (binderFreeThread p s t) :=
  h.dropThread (fun _ hq => (mem_releaseWork.mp hq).2 rfl) _

end DeathsOk

end SpicaKernel.Binder

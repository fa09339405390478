import SpicaKernel.BinderDeaths

namespace SpicaKernel.Binder
open Function List Option
set_option autoImplicit true

namespace DeathsOk

variable {s s' : Driver}

theorem setDeath_self (hdeath : s.deaths d = some death) : s.setDeath d death = s := by
  simp [Driver.setDeath, ← hdeath]

theorem todo_deathQueue (hc : s.calls p t = true) : s.Todo p (deathQueue s p t) := by
  obtain ⟨-, thread, ht, hproc⟩ := Driver.calls_iff.mp hc
  unfold deathQueue
  split
  · exact .inr ⟨t, thread, rfl, ht, hproc⟩
  · exact .inl rfl

theorem requestDeath (h : DeathsOk lost [] s) (ha : Accounts room s) (hc : s.calls p t = true)
    (he : requestDeath s p t target cookie kzalloc = .ok s') : DeathsOk lost [] s' := by
  unfold Binder.requestDeath at he
  split at he
  · cases he
    exact h
  next r hget =>
    obtain ⟨ref, hr, rfl, -⟩ := ha.getRef_owner hget
    replace he := after_ok (ref_eq_ok.mpr hr) he
    split at he
    · cases he
      exact h
    next =>
      obtain ⟨node, hn, he⟩ := bind_eq_ok.mp he
      rw [node_eq_ok] at hn
      split at he
      next hdead =>
        cases he
        have hreq := h.request hr ⟨some .deadBinder, cookie⟩
        have hnot := hreq.notify (update_self ..) rfl hn hdead (by simp)
          (todo_deathQueue hc) ⟨some .deadBinder, cookie⟩ rfl
        rw [setDeath_self (update_self ..)] at hnot
        exact hnot
      next halive =>
        cases he
        refine (h.request hr ⟨none, cookie⟩).unpend ?_
        intro ref₁ d node₁ hr₁ _ hn₁
        have href : { ref with death := some s.nextId } = ref₁ :=
          some.inj ((update_self r _ s.refs).symm.trans hr₁)
        subst href
        exact some.inj (hn.symm.trans hn₁) ▸ halive

theorem forget (h : DeathsOk lost pending s) (hr : s.refs r = some ref) :
    DeathsOk lost pending (s.setRef r { ref with death := none }) := by
  refine h.frame (.of_tables ?_ (fun _ _ node _ hn => ⟨node, hn, rfl⟩) (fun _ _ => .rfl)
    rfl rfl rfl rfl le_rfl)
  intro x ref' hx
  obtain ⟨-, rfl⟩ | ⟨-, hx⟩ := update_some_iff.mp hx
  · exact .inl ⟨rfl, h.issued.owner r ref hr⟩
  · exact .inr ⟨ref', hx, rfl, rfl, rfl⟩

theorem forget_free (h : DeathsOk lost pending s) (hr : s.refs r = some ref)
    (hd : ref.death = some d) (x : Nat) (ref' : BinderRef)
    (hx : (s.setRef r { ref with death := none }).refs x = some ref') : ref'.death ≠ some d := by
  intro hd'
  obtain ⟨-, rfl⟩ | ⟨hne, hx⟩ := update_some_iff.mp hx
  · cases hd'
  · exact hne (h.unique hx hr hd' hd)

theorem linked_iff : s.linked w = true ↔ ∃ q, (q, w) ∈ s.works := by
  simp [Driver.linked]

theorem clearDeath (h : DeathsOk lost [] s) (ha : Accounts room s) (hc : s.calls p t = true)
    (he : clearDeath s p t target cookie = .ok s') : DeathsOk lost [] s' := by
  unfold Binder.clearDeath at he
  split at he
  · cases he
    exact h
  next r hget =>
    obtain ⟨ref, hr, rfl, -⟩ := ha.getRef_owner hget
    replace he := after_ok (ref_eq_ok.mpr hr) he
    split at he
    · cases he
      exact h
    next d hd =>
      split at he
      · cases he
      next death hdeath =>
        split at he
        · cases he
          exact h
        · dsimp only at he
          have hlt := h.lt_nextId ⟨death, hdeath⟩
          split at he
          next hunlinked =>
            cases he
            have hno : ∀ q, (q, .death d) ∉ s.works := by
              intro q hq
              have hlinked : (s.setRef r { ref with death := none }).linked (.death d) = true :=
                linked_iff.mpr ⟨q, hq⟩
              rw [hlinked] at hunlinked
              cases hunlinked
            exact (h.forget hr).change hlt (fun _ _ _ => .rfl) (fun _ _ => mem_addTail_ne)
              (fun d' hne => update_of_ne hne _ _) (fun _ hd => hd)
              (filed_addTail hno (todo_deathQueue hc) ⟨_, update_self ..⟩ rfl)
              fun hx hd' => absurd hd' (h.forget_free hr hd _ _ hx)
          next hlinked =>
            split at he <;> cases he
            rw [Bool.not_eq_false] at hlinked
            obtain ⟨q₀, hq₀⟩ := linked_iff.mp hlinked
            refine (h.forget hr).change hlt (fun _ _ _ => .rfl) (fun _ _ _ => .rfl)
              (fun d' hne => update_of_ne hne _ _) (fun _ hd => hd) ?_
              fun hx hd' => absurd hd' (h.forget_free hr hd _ _ hx)
            exact ⟨fun _ _ => ⟨_, update_self ..⟩, (h.filed d).once, (h.filed d).delivered⟩

theorem findDelivered_mem (hfind : findDelivered s p cookie = some d) :
    (.delivered p, .death d) ∈ s.works := by
  obtain ⟨⟨q, w⟩, hmem, hw⟩ := exists_of_findSome?_eq_some hfind
  cases w with
  | node n => cases hw
  | death d' =>
    simp only [ite_none_right_eq_some, some.injEq] at hw
    obtain ⟨⟨rfl, -⟩, rfl⟩ := hw
    exact hmem

theorem free_of_type (h : DeathsOk lost pending s) (hitem : (q, .death d) ∈ s.works)
    (hdeath : s.deaths d = some death) (htype : death.type ≠ some .deadBinder) (r : Nat)
    (ref : BinderRef) (hr : s.refs r = some ref) : ref.death ≠ some d :=
  fun hd => htype (((h.asked hr hd).placed q hitem).1 death hdeath)

section
variable (h : DeathsOk lost [] s)
include h

theorem deadBinderDone (hc : s.calls p t = true)
    (he : deadBinderDone s p t cookie = .ok s') : DeathsOk lost [] s' := by
  unfold Binder.deadBinderDone at he
  split at he
  · cases he
    exact h
  next d hfind =>
    have hitem := findDelivered_mem hfind
    split at he
    · cases he
    next death hdeath =>
      split at he
      next htype =>
        cases he
        have hno : ∀ q, (q, .death d) ∉ (s.listDel (.death d)).works :=
          fun q hq => (mem_listDel_death.mp hq).2 rfl
        refine h.change (h.lt_nextId ⟨death, hdeath⟩) (fun _ _ _ => .rfl) (fun q' d' hne => ?_)
          (fun d' hne => update_of_ne hne _ _) (fun _ hd => hd)
          (filed_addTail hno (todo_deathQueue hc) ⟨_, update_self ..⟩ rfl)
          fun hr hd => absurd hd (h.free_of_type hitem hdeath (by simp [htype]) _ _ hr)
        exact (mem_addTail_ne hne).trans (mem_listDel_death.trans (and_iff_left hne))
      next =>
        cases he
        exact h.unlink (h.lt_nextId ⟨death, hdeath⟩) (fun _ _ => rfl)
          fun _ _ => ⟨(h.filed d).delivered p hitem, death, hdeath⟩

theorem readDeathWork (hitem : (q, .death d) ∈ s.works)
    (htodo : s.Todo p q) (he : readDeathWork s p d = .ok s') : DeathsOk lost [] s' := by
  unfold Binder.readDeathWork at he
  split at he
  · cases he
  next death hdeath =>
    split at he
    next htype =>
      cases he
      exact h.unlink (h.lt_nextId ⟨death, hdeath⟩) (fun d' hne => update_of_ne hne _ _)
        fun hr hd => absurd hd (h.free_of_type hitem hdeath (by simp [htype]) _ _ hr)
    next =>
      cases he
      exact h.deliver hitem htodo

theorem readNodeWork (he : readNodeWork s p n = .ok s') :
    DeathsOk lost [] s' := by
  obtain ⟨node, hn, ⟨_, _, _, _, _, _, rfl⟩ | ⟨-, -, -, -, rfl⟩ | rfl⟩ := readNodeWork_ok he
  · exact h.setNode hn (by rfl)
  · exact h.frame .freeNode
  · exact h.frame (.rest rfl (fun _ _ hn => hn) (fun _ _ => SameBut.filter.mem_death)
      rfl rfl rfl rfl le_rfl)

theorem readWork (hc : s.calls p t = true)
    (he : readWork s p t w = .ok s') : DeathsOk lost [] s' := by
  unfold Binder.readWork at he
  split at he
  next hw =>
    obtain ⟨q, hitem, htodo⟩ := NodesOk.todo_of_calls hc hw
    cases w with
    | node n => exact h.readNodeWork he
    | death d => exact h.readDeathWork hitem htodo he
  next =>
    cases he
    exact h

theorem die (ha : Accounts room s) (hn : s.nodes n = some node)
    (halive : node.proc ≠ none) (hnodes : s'.nodes = update s.nodes n (some node'))
    (hworks : ∀ q d, (q, .death d) ∈ s'.works ↔ (q, .death d) ∈ s.works)
    (hrefs : s'.refs = s.refs) (hdeaths : s'.deaths = s.deaths)
    (hreturned : s'.returned = s.returned) (hthreads : s'.threads = s.threads)
    (hprocs : s'.procs = s.procs) (hnext : s'.nextId = s.nextId) :
    DeathsOk lost node.refs s' := by
  constructor
  case asked =>
    intro r ref d hr hd
    rw [hrefs] at hr
    have hasked := h.asked hr hd
    have hlisted : r ∈ node.refs ↔ ref.node = n := by
      refine (ha.balanced.accounted.listed n _ (book_account hn) r).trans ?_
      simp [book_entry hr, BinderRef.entry]
    by_cases hnode : ref.node = n
    · refine ⟨hdeaths ▸ hasked.live, fun q hq => ?_, fun _ _ _ q hq => ?_,
        fun _ _ _ hpending => absurd (hlisted.mpr hnode) hpending⟩
      · rw [hdeaths, Driver.Todo, hthreads]
        exact hasked.placed q ((hworks q d).mp hq)
      · exact hasked.quiet node (hnode ▸ hn) (.inl halive) q ((hworks q d).mp hq)
    · refine hasked.congr ⟨fun q => hworks q d, by rw [hdeaths], by rw [hreturned]; exact id,
        fun q _ => by rw [Driver.Todo, Driver.Todo, hthreads]; exact id, fun node₁ hn₁ => ?_,
        by rw [hprocs]; exact id⟩ (by simp [hlisted, hnode])
      rw [hnodes, update_of_ne hnode] at hn₁
      exact ⟨node₁, hn₁, rfl⟩
  case unique => exact hrefs ▸ h.unique
  case filed =>
    exact fun d => (h.filed d).congr (fun q => (hworks q d).mp) (by rw [hdeaths])
      (by rw [hreturned]; exact id)
  case issued =>
    refine ⟨?_, ?_, ?_⟩
    · rw [hrefs, hnext]
      exact h.issued.owner
    · rw [hprocs, hnext]
      exact h.issued.proc
    · rw [hdeaths, hnext]
      exact h.issued.death

end

def Pending (lost : Prop) (rs : List Nat) (s : Driver) : Prop :=
  DeathsOk lost rs s ∧ rs.Nodup ∧ ∀ r ∈ rs, ∃ ref node,
    s.refs r = some ref ∧ s.nodes ref.node = some node ∧ node.proc = none

theorem notifyDeath (h : Pending lost (r :: rs) s) (he : notifyDeath s r = .ok s') :
    Pending lost rs s' ∧ s'.procs = s.procs := by
  obtain ⟨hok, hnodup, hdead⟩ := h
  obtain ⟨hnot, hnodup⟩ := nodup_cons.mp hnodup
  obtain ⟨ref, node, hr, hn, hproc⟩ := hdead r (by simp)
  have hrest : ∀ r' ∈ rs, ∃ ref node, s.refs r' = some ref ∧ s.nodes ref.node = some node ∧
      node.proc = none := fun r' hr' => hdead r' (by simp [hr'])
  replace he := after_ok (ref_eq_ok.mpr hr) he
  split at he
  next hnone =>
    cases he
    refine ⟨⟨hok.unpend ?_, hnodup, hrest⟩, rfl⟩
    intro ref₁ d node₁ hr₁ hd₁
    rw [hr, some.injEq] at hr₁
    rw [← hr₁, hnone] at hd₁
    cases hd₁
  next d hd =>
    split at he
    · cases he
    · split at he <;> cases he
      exact ⟨⟨hok.notify hr hd hn hproc hnot (.inl rfl) _ rfl, hnodup, hrest⟩, rfl⟩

theorem buryNode (h : DeathsOk lost [] s) (ho : Owned s) (hmem : n ∈ s.procNodes p)
    (hn : s.nodes n = some node) : Pending lost node.refs (buryNode p s n node) := by
  obtain ⟨node₀, hn₀, hp⟩ := (ho.nodes.listed p n).mp hmem
  rw [hn, some.injEq] at hn₀
  subst hn₀
  refine ⟨?_, ho.accounts.balanced.accounted.nodup n _ (book_account hn), ?_⟩
  · exact h.die ho.accounts hn (by simp [hp]) rfl (fun _ _ => SameBut.filter.mem_death)
      rfl rfl rfl rfl rfl rfl
  · intro r hr
    obtain ⟨e, he, hnode⟩ := (ho.accounts.balanced.accounted.listed n _ (book_account hn) r).mp hr
    obtain ⟨ref, hr, rfl⟩ := map_eq_some_iff.mp he
    exact ⟨ref, _, hr, (congrArg _ hnode).trans (update_self ..), rfl⟩

theorem releaseNode (h : DeathsOk lost [] s) (ho : Owned s) (hmem : n ∈ s.procNodes p)
    (he : releaseNode p s n = .ok s') : DeathsOk lost [] s' ∧ s'.procs = s.procs := by
  obtain ⟨node, hn, he⟩ := bind_eq_ok.mp he
  rw [node_eq_ok] at hn
  split at he
  · cases he
    exact ⟨h.frame .freeNode, rfl⟩
  · have hend := foldlM_ok_invariant (fun rs s₁ => Pending lost rs s₁ ∧ s₁.procs = s.procs) ?_
      ⟨h.buryNode ho hmem hn, rfl⟩ he
    · exact ⟨hend.1.1, hend.2⟩
    · intro r rs s₁ s₂ h₁ hs₂
      obtain ⟨hpend, hprocs⟩ := notifyDeath h₁.1 hs₂
      exact ⟨hpend, hprocs.trans h₁.2⟩

theorem freeThreads (h : DeathsOk lost [] s) (hp : p ∉ s.procs) (ts : List Nat)
    (hts : ∀ t ∈ ts, ∀ thread, s.threads t = some thread → thread.proc = p) :
    DeathsOk lost [] (ts.foldl (binderFreeThread p) s) ∧
      p ∉ (ts.foldl (binderFreeThread p) s).procs := by
  induction ts generalizing s with
  | nil => exact ⟨h, hp⟩
  | cons t ts ih =>
    have hfree : DeathsOk lost [] (binderFreeThread p s t) := by
      refine freeThread (h.release_dead ?_ (by simp))
      rintro p' (htodo | ⟨t', thread, htodo, ht, rfl⟩)
      · cases htodo
      · cases htodo
        rwa [hts t (by simp) thread ht]
    refine ih hfree hp ?_
    intro t' ht' thread hthread
    by_cases hne : t' = t
    · simp [binderFreeThread, hne] at hthread
    · simp only [binderFreeThread, update_of_ne hne] at hthread
      exact hts t' (by simp [ht']) thread hthread

theorem deleteRef_procs (ha : Accounts room s) (he : binderDeleteRef s r = .ok s') :
    s'.procs = s.procs := by
  obtain ⟨ref, href, -⟩ := bind_eq_ok.mp he
  have hr := ref_eq_ok.mp href
  obtain ⟨node, hn, hmem⟩ := ha.node_of_ref hr
  obtain ⟨works, -, -, rfl | ⟨-, -, -, -, -, rfl⟩⟩ := binderDeleteRef_ok he hr hn hmem
  · rfl
  · rfl

theorem unlist (h : DeathsOk lost [] s) : DeathsOk lost [] (unlistProc s p) := by
  refine h.frame
    { refs := fun _ ref hr => .inr ⟨ref, hr, rfl, rfl, rfl⟩
      nodes := fun _ _ node _ hn => ⟨node, hn, rfl⟩
      works := fun _ _ => .rfl
      deaths := rfl
      returned := rfl
      threads := fun _ thread ht => ⟨thread, ht, rfl⟩
      procs := fun _ hp => .inl (mem_of_mem_filter hp)
      nextId := le_rfl }

structure Releasing (lost : Prop) (p : Nat) (ns : List Nat) (s : Driver) : Prop where
  deaths : DeathsOk lost [] s
  owned : Owned s
  gone : p ∉ s.procs
  remaining : NodesOk.Remaining p ns s

theorem Releasing.step (h : Releasing lost p (n :: ns) s) (he : Binder.releaseNode p s n = .ok s') :
    Releasing lost p ns s' := by
  have hmem := h.remaining.2 n (by simp)
  obtain ⟨hnodes, hprocNodes⟩ := h.owned.nodes.releaseNode hmem he
  obtain ⟨hdeaths, hprocs⟩ := h.deaths.releaseNode h.owned hmem he
  exact ⟨hdeaths, ⟨h.owned.accounts.releaseNode he, hnodes⟩, by rw [hprocs]; exact h.gone,
    h.remaining.step hprocNodes⟩

theorem releasing (h : DeathsOk lost [] s) (ho : Owned s) :
    ∀ s₀, s₀ = ((unlistProc s p).procThreads p).foldl (binderFreeThread p) (unlistProc s p) →
      Releasing lost p (s₀.procNodes p) s₀ := by
  rintro s₀ rfl
  have hgone : p ∉ (unlistProc s p).procs := by simp [unlistProc]
  have ho₀ : Owned (unlistProc s p) :=
    ⟨ho.accounts.rest rfl rfl rfl rfl le_rfl rfl, ho.nodes.refsOnly rfl rfl rfl rfl rfl le_rfl⟩
  obtain ⟨h₀, hp₀⟩ := (h.unlist (p := p)).freeThreads hgone _
    (fun t ht => (ho₀.nodes.thread p t ht).2)
  have ho₁ := ho₀.nodes.freeThreads (p := p) ((unlistProc s p).procThreads p)
  exact ⟨h₀, ⟨ho₀.accounts.freeThreads _, ho₁⟩, hp₀, ho₁.nodup p, fun _ hn => hn⟩

theorem deleteRefs {rs : List Nat} (h : DeathsOk lost [] s) (ha : Accounts room s)
    (hp : p ∉ s.procs)
    (he : rs.foldlM binderDeleteRef s = .ok s') : DeathsOk lost [] s' ∧ p ∉ s'.procs := by
  have hend := foldlM_ok_invariant
    (fun _ s => Accounts room s ∧ DeathsOk lost [] s ∧ p ∉ s.procs) ?_ ⟨ha, h, hp⟩ he
  · exact hend.2
  · rintro r rs s₁ s₂ ⟨ha₁, h₁, hp₁⟩ hs₂
    exact ⟨ha₁.deleteRef hs₂, h₁.deleteRef ha₁ hs₂, by rwa [deleteRef_procs ha₁ hs₂]⟩

theorem deferredRelease (h : DeathsOk lost [] s) (ho : Owned s)
    (he : binderDeferredRelease s p = .ok s') : DeathsOk lost [] s' := by
  obtain ⟨s₁, hs₁, he⟩ := bind_eq_ok.mp he
  obtain ⟨s₂, hs₂, he⟩ := bind_eq_ok.mp he
  cases he
  have h₁ := foldlM_ok_invariant (Releasing lost p) Releasing.step (h.releasing ho _ rfl) hs₁
  obtain ⟨h₂, hp₂⟩ := h₁.deaths.deleteRefs h₁.owned.accounts h₁.gone hs₂
  refine h₂.release_dead ?_ (by simp)
  rintro p' (htodo | ⟨_, _, htodo, -⟩)
  · cases htodo
    exact hp₂
  · cases htodo

theorem threads_frame (hthreads : ∀ t thread, s.threads t = some thread →
      ∃ thread', s'.threads t = some thread' ∧ thread'.proc = thread.proc)
    (hprocs : ∀ p ∈ s'.procs, p ∈ s.procs ∨ s.nextId ≤ p ∧ p < s'.nextId)
    (hrefs : s'.refs = s.refs) (hnodes : s'.nodes = s.nodes) (hworks : s'.works = s.works)
    (hdeaths : s'.deaths = s.deaths) (hreturned : s'.returned = s.returned)
    (hnext : s.nextId ≤ s'.nextId) : DeathFrame s s' where
  refs _ ref hr := .inr ⟨ref, hrefs ▸ hr, rfl, rfl, rfl⟩
  nodes _ _ node _ hn := ⟨node, hnodes ▸ hn, rfl⟩
  works _ _ := by rw [hworks]
  deaths := hdeaths
  returned := hreturned
  threads := hthreads
  procs := hprocs
  nextId := hnext

theorem setContextMgr (h : DeathsOk lost [] s) (ha : Accounts room s) :
    DeathsOk lost [] (setContextMgr s p kzalloc) := by
  unfold Binder.setContextMgr
  split
  · exact h
  · split
    next hnew => exact h.newNode ha hnew
    next n s₁ hnew =>
      refine frame (s := s₁.modifyNode n _) ((h.newNode ha hnew).modifyNode ?_)
        (.rest rfl (fun _ _ hn => hn) (fun _ _ => .rfl) rfl rfl rfl rfl le_rfl)
      exact fun node => rfl

theorem translateBinder (h : DeathsOk lost [] s) (ho : Owned s) (hp : target ∈ s.procs)
    (he : translateBinder s p t target ptr cookie strong acceptFds kzallocNode kzallocRef
      = .ok (object, s')) : DeathsOk lost [] s' := by
  obtain ⟨n, s₀, hsender, htail⟩ := translateBinder_ok he
  have h₀ := h.senderNode ho.accounts hsender
  obtain rfl | ⟨m, r, s₁, rfl, hs₁, htail⟩ := htail
  · exact h₀
  · obtain ⟨-, hprocs, -⟩ := ho.nodes.senderNode_owner hsender
    have h₁ := h₀.getRefForNode (h₀.issued.proc target (hprocs ▸ hp)) hs₁
    obtain rfl | ⟨r, ret, -, hs₂⟩ := htail
    · exact h₁
    · exact h₁.incRef hs₂

end DeathsOk

structure Watched (lost : Prop) (s : Driver) : Prop where
  owned : Owned s
  deaths : DeathsOk lost [] s

/-- No thread exits while it has an unread answer to a death request. -/
def ExitsRead (s : Driver) : DriverOp → Prop
  | .threadExit _ t => ∀ d death, (.thread t, .death d) ∈ s.works → s.deaths d = some death →
    death.type ≠ some .deadBinder
  | _ => True

theorem Watched.stable (hok : ∀ s op, Ok s op → lost ∨ ExitsRead s op) :
    StepStable (Watched lost) (Watched lost) Ok where
  weaken h := h
  incNode h he := ⟨Owned.stable.incNode h.owned he, h.deaths.incNode he⟩
  decNode h he := ⟨Owned.stable.decNode h.owned he, h.deaths.decNode he⟩
  incRef h he := ⟨Owned.stable.incRef h.owned he, h.deaths.incRef he⟩
  decRef h he := ⟨Owned.stable.decRef h.owned he, h.deaths.decRef h.owned.accounts he⟩
  getRefForNode h hp he := ⟨Owned.stable.getRefForNode h.owned hp he,
    h.deaths.getRefForNode (h.deaths.issued.proc _ hp) he⟩
  pending h hn := ⟨Owned.stable.pending h.owned hn, h.deaths.setNode hn (by rfl)⟩
  binderOpen {s} h := by
    refine ⟨Owned.stable.binderOpen h.owned, h.deaths.frame (DeathsOk.threads_frame
      (fun _ thread ht => ⟨thread, ht, rfl⟩) ?_ rfl rfl rfl rfl rfl (Nat.le_succ _))⟩
    intro p hp
    obtain rfl | hp := mem_cons.mp hp
    · exact .inr ⟨le_rfl, Nat.lt_succ_self _⟩
    · exact .inl hp
  getThread {s p} h hp := by
    refine ⟨Owned.stable.getThread h.owned hp, h.deaths.frame (DeathsOk.threads_frame
      ?_ (fun _ hp => .inl hp) rfl rfl rfl rfl rfl (Nat.le_succ _))⟩
    intro t thread ht
    have hne : t ≠ s.nextId := ne_of_none (h.owned.nodes.freshThread _ le_rfl) ht
    exact ⟨thread, by simp [binderGetThread, update_of_ne hne, ht], rfl⟩
  enterLooper {s p t} h hc := by
    refine ⟨Owned.stable.enterLooper h.owned hc, h.deaths.frame (DeathsOk.threads_frame
      ?_ (fun _ hp => .inl hp) rfl rfl rfl rfl rfl le_rfl)⟩
    intro t' thread ht
    by_cases hne : t' = t
    · subst hne
      obtain ⟨-, thread₀, ht₀, hproc⟩ := Driver.calls_iff.mp hc
      rw [ht₀, some.injEq] at ht
      exact ⟨⟨p, true⟩, update_self .., by rw [← ht, hproc]⟩
    · exact ⟨thread, (update_of_ne hne _ _).trans ht, rfl⟩
  setContextMgr h hc := ⟨Owned.stable.setContextMgr h.owned hc,
    h.deaths.setContextMgr h.owned.accounts⟩
  translateBinder h hc hp he := ⟨Owned.stable.translateBinder h.owned hc hp he,
    h.deaths.translateBinder h.owned hp he⟩
  requestDeath h hc he := ⟨Owned.stable.requestDeath h.owned hc he,
    h.deaths.requestDeath h.owned.accounts hc he⟩
  clearDeath h hc he := ⟨Owned.stable.clearDeath h.owned hc he,
    h.deaths.clearDeath h.owned.accounts hc he⟩
  deadBinderDone h hc he := ⟨Owned.stable.deadBinderDone h.owned hc he,
    h.deaths.deadBinderDone hc he⟩
  readWork h hc he := ⟨Owned.stable.readWork h.owned hc he, h.deaths.readWork hc he⟩
  threadExit {s p t} h hc hexit := by
    refine ⟨Owned.stable.threadExit h.owned hc trivial, .freeThread (h.deaths.release ?_)⟩
    refine (hok _ _ hexit).imp id ?_
    intro hread r ref d hr hd _ hq
    obtain ⟨death, hdeath⟩ := (h.deaths.asked hr hd).live
    exact hread d death hq hdeath (((h.deaths.asked hr hd).placed _ hq).1 death hdeath)
  release h hp he := ⟨Owned.stable.release h.owned hp he, h.deaths.deferredRelease h.owned he⟩

theorem le_freeDesc (hsorted : ds.Pairwise (· < ·)) (hle : ∀ d ∈ ds, k ≤ d) :
    k ≤ freeDesc k ds := by
  induction ds generalizing k with
  | nil => exact le_rfl
  | cons d ds ih =>
    obtain ⟨hd, hds⟩ := pairwise_cons.mp hsorted
    have hkd := hle d (by simp)
    unfold freeDesc
    split
    · exact le_rfl
    · have hnext := ih hds (k := d + 1) hd
      omega

theorem freeDesc_not_mem (hsorted : ds.Pairwise (· < ·)) : freeDesc k ds ∉ ds := by
  induction ds generalizing k with
  | nil => simp
  | cons d ds ih =>
    obtain ⟨hd, hds⟩ := pairwise_cons.mp hsorted
    unfold freeDesc
    split
    next hlt =>
      rw [mem_cons, not_or]
      refine ⟨by omega, fun hmem => ?_⟩
      have hlater := hd k hmem
      omega
    next =>
      have hnext := le_freeDesc hds (k := d + 1) hd
      rw [mem_cons, not_or]
      exact ⟨by omega, ih hds⟩

theorem node_ne_bug (s : Driver) (n : Nat) : s.node n ≠ .error .bug := by
  unfold Driver.node
  cases s.nodes n <;> nofun

theorem ref_ne_bug (s : Driver) (r : Nat) : s.ref r ≠ .error .bug := by
  unfold Driver.ref
  cases s.refs r <;> nofun

theorem incNode_ne_bug : binderIncNode s n strong internal q ≠ .error .bug := by
  refine bind_ne_error (node_ne_bug s n) fun node _ => ?_
  refine ite_ne_error (fun _ => unless_ne_error fun _ => ?_)
    fun _ => ite_ne_error (fun _ => ?_) fun _ => ok_ne_error
  · cases q with
    | none => exact ok_ne_error
    | some q => exact ite_ok_ne_error
  · cases q <;> exact ok_ne_error

theorem decNode_ne_bug : binderDecNode s n strong internal ≠ .error .bug :=
  bind_ne_error (node_ne_bug s n) fun _ _ =>
    ite_ne_error (fun _ => ite_ok_ne_error) fun _ => ite_ok_ne_error

theorem deleteRef_ne_bug : binderDeleteRef s r ≠ .error .bug := by
  refine bind_ne_error (ref_ne_bug s r) fun ref _ => ?_
  refine bind_ne_error (ite_ne_error (fun _ => decNode_ne_bug) fun _ => ok_ne_error) fun s₁ _ => ?_
  refine bind_ne_error (node_ne_bug s₁ ref.node) fun node _ => ?_
  exact bind_ne_error decNode_ne_bug fun _ _ => ok_ne_error

theorem incRef_ne_bug : binderIncRef s r strong q ≠ .error .bug := by
  refine bind_ne_error (ref_ne_bug s r) fun ref _ => ?_
  refine bind_ne_error (ite_ne_error (fun _ => incNode_ne_bug) fun _ => ok_ne_error) fun _ _ => ?_
  exact ite_ok_ne_error

theorem decRef_ne_bug : binderDecRef s r strong ≠ .error .bug := by
  refine bind_ne_error (ref_ne_bug s r) fun ref _ => ?_
  refine unless_ne_error fun _ => ?_
  refine bind_ne_error (ite_ne_error (fun _ => decNode_ne_bug) fun _ => ok_ne_error) fun _ _ => ?_
  exact ite_ne_error (fun _ => bind_ne_error deleteRef_ne_bug fun _ _ => ok_ne_error)
    fun _ => ok_ne_error

theorem getRefForNode_ne_bug (ha : Accounts room s) :
    binderGetRefForNode s p n kzalloc ≠ .error .bug := by
  have hsorted : ((s.refsByDesc p).map (refDesc s)).Pairwise (· < ·) := by
    rw [pairwise_map, ← book_key]
    exact ha.balanced.sorted p
  unfold binderGetRefForNode
  split
  · exact ok_ne_error
  · refine unless_ne_error fun _ => ?_
    refine bind_ne_error (node_ne_bug s n) fun node _ => ?_
    exact ite_ne_error (fun hmem => absurd hmem (freeDesc_not_mem hsorted)) fun _ => ok_ne_error

theorem incRefs_ne_bug (ha : Accounts room s) :
    incRefs s p target strong kzalloc ≠ .error .bug := by
  unfold incRefs
  split
  · refine bind_ne_error (getRefForNode_ne_bug ha) fun x _ => ?_
    obtain ⟨r, s₁⟩ := x
    cases r with
    | none => exact nofun
    | some r => exact map_ne_error incRef_ne_bug
  · split
    · exact ok_ne_error
    · exact map_ne_error incRef_ne_bug

theorem decRefs_ne_bug : decRefs s p target strong ≠ .error .bug := by
  unfold decRefs
  split
  · exact ok_ne_error
  · exact map_ne_error decRef_ne_bug

theorem incRefsDone_ne_bug : incRefsDone s p ptr cookie strong ≠ .error .bug := by
  unfold incRefsDone
  split
  · exact ok_ne_error
  · refine bind_ne_error (node_ne_bug s _) fun node _ => ?_
    exact unless_ne_error fun _ =>
      ite_ne_error (fun _ => unless_ne_error fun _ => decNode_ne_bug)
        fun _ => unless_ne_error fun _ => decNode_ne_bug

theorem translateBinder_ne_bug (ha : Accounts room s) :
    translateBinder s p t target ptr cookie strong acceptFds kzallocNode kzallocRef
      ≠ .error .bug := by
  unfold translateBinder
  split
  · exact ok_ne_error
  next hsender =>
    refine bind_ne_error (node_ne_bug _ _) fun node _ => ?_
    refine unless_ne_error fun _ => ?_
    refine bind_ne_error (getRefForNode_ne_bug (ha.senderNode hsender)) fun x _ => ?_
    obtain ⟨r, s₁⟩ := x
    cases r with
    | none => exact ok_ne_error
    | some r => exact bind_ne_error incRef_ne_bug fun _ _ => ok_ne_error

theorem translateHandle_ne_bug (ha : Accounts room s) :
    translateHandle s p target handle strong kzallocRef ≠ .error .bug := by
  unfold translateHandle
  split
  · exact ok_ne_error
  · refine bind_ne_error (ref_ne_bug s _) fun ref _ => ?_
    refine bind_ne_error (node_ne_bug s _) fun node _ => ?_
    refine ite_ne_error (fun _ => bind_ne_error incNode_ne_bug fun _ _ => ok_ne_error) fun _ => ?_
    refine bind_ne_error (getRefForNode_ne_bug ha) fun x _ => ?_
    obtain ⟨r, s₁⟩ := x
    cases r with
    | none => exact ok_ne_error
    | some r => exact bind_ne_error incRef_ne_bug fun _ _ => ok_ne_error

theorem releaseObject_ne_bug : releaseObject s p strong object ≠ .error .bug := by
  cases object with
  | binder ptr cookie =>
    simp only [releaseObject]
    split
    · exact ok_ne_error
    · exact decNode_ne_bug
  | handle desc =>
    simp only [releaseObject]
    split
    · exact ok_ne_error
    · exact map_ne_error decRef_ne_bug

theorem holdTarget_ne_bug : holdTarget s p handle ≠ .error .bug := by
  refine bind_ne_error ?_ fun n _ => ?_
  · refine ite_ne_error (fun _ => ?_) fun _ => ok_ne_error
    split
    · exact ok_ne_error
    · exact bind_ne_error (ref_ne_bug s _) fun _ _ => ok_ne_error
  · cases n with
    | none => exact ok_ne_error
    | some n =>
      refine bind_ne_error (node_ne_bug s n) fun node _ => ?_
      exact unless_ne_error fun _ => bind_ne_error incNode_ne_bug fun _ _ => ok_ne_error

theorem requestDeath_ne_bug : requestDeath s p t target cookie kzalloc ≠ .error .bug := by
  unfold requestDeath
  split
  · exact ok_ne_error
  · refine bind_ne_error (ref_ne_bug s _) fun ref _ => ?_
    refine unless_ne_error fun _ => ?_
    refine bind_ne_error (node_ne_bug _ _) fun node _ => ?_
    exact ite_ok_ne_error

theorem clearDeath_ne_bug (h : DeathsOk lost [] s) :
    clearDeath s p t target cookie ≠ .error .bug := by
  unfold clearDeath
  split
  · exact ok_ne_error
  next r _ =>
    refine bind_ne_error (ref_ne_bug s r) fun ref hr => ?_
    rw [ref_eq_ok] at hr
    split
    · exact ok_ne_error
    next d hd =>
      split
      · exact nofun
      next death hdeath =>
        refine unless_ne_error fun _ => ?_
        refine unless_ne_error fun hlinked => ?_
        refine ite_ne_error (fun htype => ?_) fun _ => ok_ne_error
        obtain ⟨q, hq⟩ := DeathsOk.linked_iff.mp (Bool.not_eq_false _ ▸ hlinked)
        exact absurd (((h.asked hr hd).placed q hq).1 death hdeath) htype

theorem deadBinderDone_ne_bug : deadBinderDone s p t cookie ≠ .error .bug := by
  unfold deadBinderDone
  split
  · exact ok_ne_error
  · split
    · exact nofun
    · exact ite_ok_ne_error

theorem readWork_ne_bug : readWork s p t w ≠ .error .bug := by
  refine ite_ne_error (fun _ => ?_) fun _ => ok_ne_error
  cases w with
  | node n =>
    refine bind_ne_error (node_ne_bug s n) fun node _ => ?_
    exact unless_ne_error fun _ => unless_ne_error fun _ => unless_ne_error fun _ => unless_ne_error
      fun _ => ite_ok_ne_error
  | death d =>
    simp only [readDeathWork]
    split
    · intro he
      cases he
    · exact ite_ok_ne_error

theorem notifyDeath_ne_bug (h : DeathsOk.Pending lost (r :: rs) s) :
    notifyDeath s r ≠ .error .bug := by
  refine bind_ne_error (ref_ne_bug s r) fun ref hr => ?_
  rw [ref_eq_ok] at hr
  split
  · exact ok_ne_error
  next d hd =>
    split
    · exact nofun
    · refine ite_ne_error (fun hlinked => ?_) fun _ => ok_ne_error
      obtain ⟨q, hq⟩ := DeathsOk.linked_iff.mp hlinked
      obtain ⟨ref', node, hr', hn, -⟩ := h.2.2 r (by simp)
      rw [hr, Option.some.injEq] at hr'
      subst hr'
      exact absurd hq ((h.1.asked hr hd).quiet node hn (.inr (by simp)) q)

theorem releaseNode_ne_bug (h : DeathsOk lost [] s) (ho : Owned s) (hmem : n ∈ s.procNodes p) :
    releaseNode p s n ≠ .error .bug := by
  refine bind_ne_error (node_ne_bug s n) fun node hn => ?_
  rw [node_eq_ok] at hn
  refine unless_ne_error fun _ => ?_
  exact foldlM_ne_error (DeathsOk.Pending lost) (fun h₁ hs₂ => (DeathsOk.notifyDeath h₁ hs₂).1)
    notifyDeath_ne_bug (h.buryNode ho hmem hn)

theorem deferredRelease_ne_bug (h : DeathsOk lost [] s) (ho : Owned s) :
    binderDeferredRelease s p ≠ .error .bug := by
  refine bind_ne_error ?_ fun s₁ _ => bind_ne_error ?_ fun _ _ => ok_ne_error
  · exact foldlM_ne_error (DeathsOk.Releasing lost p) DeathsOk.Releasing.step
      (fun h₁ => releaseNode_ne_bug h₁.deaths h₁.owned (h₁.remaining.2 _ (by simp)))
      (h.releasing ho _ rfl)
  · exact foldlM_ne_error (fun _ _ => True) (fun _ _ => trivial) (fun _ => deleteRef_ne_bug) trivial

theorem Watched.step_ne_bug (h : Watched lost s) (op : DriverOp) :
    driverStep s op ≠ .error .bug := by
  have hskip : ∀ {c : Prop} [Decidable c] {x : Result Driver}, x ≠ .error .bug →
      (if c then x else .ok s) ≠ .error .bug :=
    fun hx => ite_ne_error (fun _ => hx) fun _ => ok_ne_error
  cases op with
  | binderOpen => exact ok_ne_error
  | getThread p => exact hskip ok_ne_error
  | enterLooper p t => exact hskip ok_ne_error
  | setContextMgr p t kzalloc => exact hskip ok_ne_error
  | incRefs p t target strong kzalloc => exact hskip (incRefs_ne_bug h.owned.accounts)
  | decRefs p t target strong => exact hskip decRefs_ne_bug
  | incRefsDone p t ptr cookie strong => exact hskip incRefsDone_ne_bug
  | translateBinder p t target ptr cookie strong acceptFds kzallocNode kzallocRef =>
    exact hskip (map_ne_error (translateBinder_ne_bug h.owned.accounts))
  | translateHandle p t target handle strong kzallocRef =>
    exact hskip (map_ne_error (translateHandle_ne_bug h.owned.accounts))
  | releaseObject p t strong object => exact hskip releaseObject_ne_bug
  | holdTarget p t handle => exact hskip holdTarget_ne_bug
  | dropTarget p t n => exact hskip decNode_ne_bug
  | requestDeath p t target cookie kzalloc => exact hskip requestDeath_ne_bug
  | clearDeath p t target cookie => exact hskip (clearDeath_ne_bug h.deaths)
  | deadBinderDone p t cookie => exact hskip deadBinderDone_ne_bug
  | readWork p t w => exact hskip readWork_ne_bug
  | threadExit p t => exact hskip ok_ne_error
  | release p => exact hskip (deferredRelease_ne_bug h.deaths h.owned)

theorem Watched.init : Watched lost Driver.init where
  owned := .init
  deaths :=
    { asked := fun hr => nomatch hr
      unique := fun hr => nomatch hr
      filed := fun _ => ⟨nofun, nofun, nofun⟩
      issued := ⟨nofun, nofun, fun _ _ => rfl⟩ }

/-- A live process that asked about a dead node has its answer, or has it in a list. -/
def NoneLost (s : Driver) : Prop :=
  ∀ r ref d node, s.refs r = some ref → ref.death = some d → s.nodes ref.node = some node →
    node.proc = none → ref.proc ∈ s.procs →
      d ∈ s.returned ∨ ∃ q, s.Todo ref.proc q ∧ (q, .death d) ∈ s.works

/-- No run meets a `BUG`, and no answer is lost if threads read their answers before they exit. -/
theorem binder_death_notices_kept (ops : List DriverOp) :
    ops.foldlM driverStep Driver.init ≠ .error .bug ∧
      ∀ s, Run ExitsRead (fun s op => (driverStep s op).toOption) Driver.init ops s →
        NoneLost s := by
  constructor
  · have hstable : StepStable (Watched True) (Watched True) fun _ _ => True :=
      Watched.stable fun _ _ _ => .inl trivial
    exact foldlM_ne_error (fun _ => Watched True) (fun h he => hstable.step h trivial he)
      (fun h => h.step_ne_bug _) .init
  · intro s hrun
    have hstable : StepStable (Watched False) (Watched False) ExitsRead :=
      Watched.stable fun _ _ hok => .inr hok
    have hstep : ∀ {s op s'}, Watched False s → ExitsRead s op →
        (driverStep s op).toOption = some s' → Watched False s' := by
      intro s op s' h hok he
      cases hs : driverStep s op with
      | error e =>
        rw [hs] at he
        cases he
      | ok s₁ =>
        rw [hs] at he
        cases he
        exact hstable.step h hok hs
    have hend := hrun.invariant hstep .init
    intro r ref d node hr hd hn hdead hlive
    exact ((hend.deaths.asked hr hd).told node hn hdead (by simp) hlive).resolve_left id

theorem binder_death_notices_kept_sample : ∃ s,
    Run ExitsRead (fun s op => (driverStep s op).toOption) Driver.init
      [.binderOpen, .binderOpen, .getThread 0, .getThread 1, .setContextMgr 1 3 true,
        .translateBinder 0 2 1 7 9 true false true true, .requestDeath 1 3 1 5 true, .release 0,
        .threadExit 1 3] s ∧ s.works = [(.proc 1, .death 7)] ∧ NoneLost s := by
  have hrun : ∃ s, Run ExitsRead (fun s op => (driverStep s op).toOption) Driver.init
      [.binderOpen, .binderOpen, .getThread 0, .getThread 1, .setContextMgr 1 3 true,
        .translateBinder 0 2 1 7 9 true false true true, .requestDeath 1 3 1 5 true, .release 0,
        .threadExit 1 3] s ∧ s.works = [(.proc 1, .death 7)] := by
    refine ⟨_, .cons trivial rfl (.cons trivial rfl (.cons trivial rfl (.cons trivial rfl
      (.cons trivial rfl (.cons trivial rfl (.cons trivial rfl (.cons trivial rfl
      (.cons ?_ rfl (.nil _))))))))), rfl⟩
    intro d death hq
    have hmem : (Queue.thread 3, Work.death d) ∈ [(Queue.proc 1, Work.death 7)] := hq
    simp at hmem
  obtain ⟨s, hs, hworks⟩ := hrun
  exact ⟨s, hs, hworks, (binder_death_notices_kept _).2 s hs⟩

/-- A looper asks about a dead node, gets the answer into its own list and exits. -/
theorem binder_death_notice_lost : ¬ ∀ (ops : List DriverOp) (s : Driver),
    ops.foldlM driverStep Driver.init = .ok s → NoneLost s := by
  intro h
  have hrun : ∃ s, [DriverOp.binderOpen, .binderOpen, .getThread 0, .getThread 1,
      .setContextMgr 1 3 true, .translateBinder 0 2 1 7 9 true false true true, .release 0,
      .enterLooper 1 3, .requestDeath 1 3 1 5 true, .threadExit 1 3].foldlM driverStep Driver.init
        = .ok s ∧ s.works = [] ∧ s.returned = [] ∧ ∃ ref node, s.refs 6 = some ref ∧
          ref.death = some 7 ∧ s.nodes ref.node = some node ∧ node.proc = none ∧
          ref.proc ∈ s.procs :=
    ⟨_, rfl, rfl, rfl, _, _, rfl, rfl, rfl, rfl, by decide⟩
  obtain ⟨s, hs, hworks, hreturned, ref, node, hr, hd, hn, hdead, hlive⟩ := hrun
  obtain hret | ⟨q, -, hq⟩ := h _ s hs 6 ref 7 node hr hd hn hdead hlive
  · rw [hreturned] at hret
    cases hret
  · rw [hworks] at hq
    cases hq

end SpicaKernel.Binder

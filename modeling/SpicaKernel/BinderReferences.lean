import SpicaKernel.BinderEffects
import SpicaKernel.ReferenceBooks

namespace SpicaKernel.Binder
open Function List Option
set_option autoImplicit true

section

open References

def BinderRef.entry (ref : BinderRef) : Entry Nat Nat :=
  ⟨ref.proc, ref.node, ref.desc, ref.strong.toInt⟩

def BinderNode.account (node : BinderNode) : Account Nat :=
  ⟨node.refs, node.internalStrongRefs.toInt⟩

def Driver.book (s : Driver) : Book Nat Nat Nat where
  entries r := (s.refs r).map BinderRef.entry
  accounts n := (s.nodes n).map BinderNode.account
  byKey := s.refsByDesc
  byNode := s.refsByNode

def FreedClean (x : FreeSite × BinderNode) : Prop :=
  x.2.refs = [] ∧ x.2.internalStrongRefs = 0 ∧
    (x.1 ≠ .procRelease → x.2.localStrongRefs = 0 ∧ x.2.localWeakRefs = 0)

/-- The books of the driver, which can still do `room` increments until a counter may wrap around;
without any room they say nothing of the counts. -/
structure Accounts (room : Nat) (s : Driver) : Prop where
  balanced : s.book.Balanced
  counted : 0 < room → s.book.Counted (2 ^ 31 - room)
  freshRef : ∀ r, s.nextId ≤ r → s.refs r = none
  freshNode : ∀ n, s.nextId ≤ n → s.nodes n = none
  freed : 0 < room → ∀ x ∈ s.freed, FreedClean x

theorem Accounts.mono (h : Accounts room s) (hle : room' ≤ room) : Accounts room' s where
  balanced := h.balanced
  counted hpos := (h.counted (by omega)).mono (by omega)
  freshRef := h.freshRef
  freshNode := h.freshNode
  freed hpos := h.freed (by omega)

theorem map_update [DecidableEq α] (g : β → γ) (f : α → Option β) (i : α) (v : Option β) :
    (fun x => (update f i v x).map g) = update (fun x => (f x).map g) i (v.map g) := by
  funext x
  by_cases hx : x = i
  · rw [hx, update_self, update_self]
  · rw [update_of_ne hx, update_of_ne hx]

section Views

variable {s s' : Driver}

theorem book_entry (h : s.refs r = some ref) : s.book.entries r = some ref.entry := by
  simp [Driver.book, h]

theorem book_account (h : s.nodes n = some node) : s.book.accounts n = some node.account := by
  simp [Driver.book, h]

theorem entries_set (h : s'.refs = update s.refs r (some ref)) :
    s'.book.entries = update s.book.entries r (some ref.entry) := by
  simp [Driver.book, h, map_update]

theorem entries_drop (h : s'.refs = update s.refs r none) :
    s'.book.entries = update s.book.entries r none := by
  simp [Driver.book, h, map_update]

theorem accounts_set (h : s'.nodes = update s.nodes n (some node)) :
    s'.book.accounts = update s.book.accounts n (some node.account) := by
  simp [Driver.book, h, map_update]

theorem accounts_drop (h : s'.nodes = update s.nodes n none) :
    s'.book.accounts = update s.book.accounts n none := by
  simp [Driver.book, h, map_update]

theorem accounts_touch (hn : s.nodes n = some node) (hacc : node'.account = node.account)
    (h : s'.nodes = update s.nodes n (some node')) :
    s'.book.accounts = s.book.accounts := by
  rw [accounts_set h, hacc, ← book_account hn, update_eq_self]

theorem entries_touch (hr : s.refs r = some ref) (hentry : ref'.entry = ref.entry)
    (h : s'.refs = update s.refs r (some ref')) : s'.book.entries = s.book.entries := by
  rw [entries_set h, hentry, ← book_entry hr, update_eq_self]

theorem book_key (s : Driver) : s.book.key = refDesc s := by
  funext r
  simp [Book.key, Driver.book, refDesc, comp_def, BinderRef.entry]

end Views

namespace Accounts

variable {s s' : Driver}

section
variable (h : Accounts room s)
include h

theorem frame (hbook : s'.book = s.book) (hnext : s.nextId ≤ s'.nextId)
    (hfreed : s'.freed = s.freed) : Accounts room s' where
  balanced := hbook ▸ h.balanced
  counted hpos := hbook ▸ h.counted hpos
  freshRef r hr := by
    have he : s'.book.entries r = s.book.entries r := by rw [hbook]
    simpa [Driver.book, h.freshRef r (hnext.trans hr)] using he
  freshNode n hn := by
    have ha : s'.book.accounts n = s.book.accounts n := by rw [hbook]
    simpa [Driver.book, h.freshNode n (hnext.trans hn)] using ha
  freed := hfreed ▸ h.freed

theorem touch (hn : s.nodes n = some node) (hacc : node'.account = node.account) :
    Accounts room (s.touch n node' works) := by
  refine h.frame ?_ le_rfl rfl
  have ha : (s.touch n node' works).book.accounts = s.book.accounts := accounts_touch hn hacc rfl
  exact congrArg (fun a => { s.book with accounts := a }) ha

theorem free (tree : Option Nat) (hn : s.nodes n = some node)
    (hempty : node.refs = [])
    (hfreed : 0 < room → FreedClean (site, node')) :
    Accounts room (s.freeNode site tree n node') where
  balanced := by
    refine h.balanced.of_accounted ?_ rfl rfl rfl
    exact h.balanced.accounted.closeNode (book_account hn) hempty rfl (accounts_drop rfl)
  counted hpos := by
    refine (h.counted hpos).nodes rfl fun m a ha => .inr ?_
    rw [accounts_drop (s := s) (n := n) rfl, update_none_iff] at ha
    exact ha.2
  freshRef := h.freshRef
  freshNode m hm := by
    by_cases heq : m = n
    · simp [heq, Driver.freeNode]
    · simpa [Driver.freeNode, update_of_ne heq] using h.freshNode m hm
  freed := by
    intro hpos x hx
    obtain rfl | hx := mem_cons.mp hx
    · exact hfreed hpos
    · exact h.freed hpos x hx

theorem internal_zero (hpos : 0 < room) (hn : s.nodes n = some node) (hempty : node.refs = []) :
    node.internalStrongRefs = 0 :=
  Int32.toInt_inj.mp ((h.counted hpos).refs_empty (book_account hn) hempty)

theorem node_of_ref (hr : s.refs r = some ref) :
    ∃ node, s.nodes ref.node = some node ∧ r ∈ node.refs := by
  obtain ⟨a, ha⟩ := h.balanced.accounted.held r _ (book_entry hr)
  have hmem := h.balanced.accounted.mem_refs (book_entry hr) ha
  simp only [Driver.book, map_eq_some_iff] at ha
  obtain ⟨node, hn, rfl⟩ := ha
  exact ⟨node, hn, hmem⟩

theorem getRef_owner (hget : binderGetRef s p desc = some r) :
    ∃ ref, s.refs r = some ref ∧ ref.proc = p ∧ ref.desc = desc := by
  have hmem := mem_of_find?_eq_some hget
  have hdesc := find?_some hget
  obtain ⟨e, he, howner⟩ := (h.balanced.byKey.mem p r).mp hmem
  obtain ⟨ref, hr, rfl⟩ := map_eq_some_iff.mp he
  exact ⟨ref, hr, howner, by simpa [hr] using hdesc⟩

end

theorem internal_local (node : BinderNode) (strong : Bool) (k : Int32) :
    (node.count strong false k).internalStrongRefs = node.internalStrongRefs := by
  cases strong <;> rfl

theorem account_local (node : BinderNode) (strong : Bool) (k : Int32) :
    (node.count strong false k).account = node.account := by
  rw [BinderNode.account, internal_local, BinderNode.count_refs]
  rfl

theorem incNode (h : Accounts room s) (he : binderIncNode s n strong false q = .ok (ret, s')) :
    Accounts room s' := by
  obtain ⟨node, works, hn, -, -, -, -, rfl⟩ := binderIncNode_ok he
  refine h.touch hn ?_
  split
  · exact account_local node strong _
  · rfl

theorem decNode (h : Accounts room s) (he : binderDecNode s n strong false = .ok s') :
    Accounts room s' := by
  obtain ⟨node, hn, ⟨works, -, -, rfl⟩ | ⟨hempty, hlocal, hweak, -, rfl⟩⟩ := binderDecNode_ok he
  · exact h.touch hn (account_local node strong _)
  · refine h.free node.proc hn hempty fun hpos => ⟨by simpa, ?_, fun _ => ⟨hlocal, hweak⟩⟩
    rw [internal_local]
    exact h.internal_zero hpos hn hempty

section
variable (h : Accounts room s) (hr : s.refs r = some ref)
include h hr

theorem recount (hn : s.nodes ref.node = some node) (hle : room' ≤ room)
    (hrefs : node'.refs = node.refs)
    (hcount : 0 < room' → node'.internalStrongRefs.toInt = node.internalStrongRefs.toInt
      + ((ref.count strong k).entry.weight - ref.entry.weight) ∧
      node'.internalStrongRefs.toInt ≤ 2 ^ 31 - (room' : Int) ∧
      0 ≤ (ref.count strong k).strong.toInt ∧
      (ref.count strong k).strong.toInt ≤ 2 ^ 31 - (room' : Int)) :
    Accounts room' ((s.touch ref.node node' works).setRef r (ref.count strong k)) where
  balanced := by
    refine h.balanced.revalue (book_entry hr) (book_account hn) (entries_set rfl)
      (accounts_set rfl) hrefs rfl rfl ?_ ?_ ?_
    all_goals cases strong <;> rfl
  counted hpos := by
    obtain ⟨hsum, hmost, hrange⟩ := hcount hpos
    exact (h.counted (by omega)).revalue h.balanced.accounted (by omega) (book_entry hr)
      (book_account hn) (entries_set rfl) (accounts_set rfl) hrefs hsum hmost hrange
  freshRef x hx := by
    have hne : x ≠ r := (ne_of_none (h.freshRef x hx) hr).symm
    simpa [Driver.setRef, Driver.touch, update_of_ne hne] using h.freshRef x hx
  freshNode x hx := by
    have hne : x ≠ ref.node := (ne_of_none (h.freshNode x hx) hn).symm
    simpa [Driver.setRef, Driver.touch, update_of_ne hne] using h.freshNode x hx
  freed hpos := h.freed (by omega)

theorem range (hpos : 0 < room) :
    0 ≤ ref.strong.toInt ∧ ref.strong.toInt ≤ 2 ^ 31 - (room : Int) :=
  (h.counted hpos).range r _ (book_entry hr)

end

theorem weight_eq (ref : BinderRef) :
    ref.entry.weight = if 0 < ref.strong.toInt then 1 else 0 := by
  by_cases hpos : 0 < ref.strong.toInt <;>
  simp [BinderRef.entry, Entry.weight, Entry.active, hpos]

theorem toInt_add_one (x : Int32) (hlo : 0 ≤ x.toInt) (hhi : x.toInt + 1 < 2 ^ 31) :
    (x + 1).toInt = x.toInt + 1 := by
  rw [Int32.toInt_add]
  exact Int.bmod_eq_of_le (by change -(2 ^ 32 / 2 : Int) ≤ x.toInt + 1; omega)
    (by change x.toInt + 1 < (2 ^ 32 + 1) / 2; omega)

theorem toInt_sub_one (x : Int32) (hlo : 0 < x.toInt) :
    (x + -1).toInt = x.toInt - 1 := by
  have hlt := x.toInt_lt
  rw [Int32.toInt_add]
  exact Int.bmod_eq_of_le (by change -(2 ^ 32 / 2 : Int) ≤ x.toInt + -1; omega)
    (by change x.toInt + -1 < (2 ^ 32 + 1) / 2; omega)

theorem count_strong (ref : BinderRef) (k : Int32) : (ref.count true k).strong = ref.strong + k :=
  rfl

theorem count_weak (ref : BinderRef) (k : Int32) : (ref.count false k).strong = ref.strong :=
  rfl

section Counting

variable (h : Accounts room s)
include h

theorem internal_range (hpos : 0 < room) (hn : s.nodes n = some node) :
    0 ≤ node.internalStrongRefs.toInt ∧ node.internalStrongRefs.toInt ≤ 2 ^ 31 - (room : Int) := by
  have hcounted := h.counted hpos
  refine ⟨?_, hcounted.most _ _ (book_account hn)⟩
  change 0 ≤ node.account.strongRefs
  rw [hcounted.counted _ _ (book_account hn)]
  exact Int.natCast_nonneg _

theorem incRef (he : binderIncRef s r strong q = .ok (ret, s')) : Accounts (room - 1) s' := by
  obtain ⟨ref, hr, ⟨-, rfl⟩ | ⟨-, hpos, rfl⟩ | ⟨-, hzero, node, works, hn, -, -, rfl⟩⟩ :=
    binderIncRef_ok he
  · exact h.mono (Nat.sub_le _ _)
  · obtain ⟨node, hn, -⟩ := h.node_of_ref hr
    rw [← touch_self hn]
    refine h.recount hr hn (Nat.sub_le _ _) rfl fun hroom => ?_
    obtain ⟨hlo, hhi⟩ := h.range hr (by omega)
    obtain ⟨-, hmost⟩ := h.internal_range (by omega) hn
    rw [weight_eq, weight_eq]
    cases strong with
    | true =>
      have hne : ref.strong.toInt ≠ 0 := fun heq => hpos (Int32.toInt_inj.mp heq)
      rw [count_strong, toInt_add_one _ hlo (by omega), if_pos (by omega), if_pos (by omega)]
      omega
    | false =>
      rw [count_weak]
      omega
  · refine h.recount hr hn (Nat.sub_le _ _) BinderNode.count_refs fun hroom => ?_
    obtain ⟨hlo, hhi⟩ := h.range hr (by omega)
    obtain ⟨hnonneg, hmost⟩ := h.internal_range (by omega) hn
    rw [weight_eq, weight_eq]
    cases strong with
    | true =>
      have heq : ref.strong.toInt = 0 := Int32.toInt_inj.mpr hzero
      rw [count_strong, toInt_add_one _ hlo (by omega), heq, BinderNode.count,
        toInt_add_one _ hnonneg (by omega), if_pos (by omega), if_neg (by omega)]
      omega
    | false =>
      rw [count_weak, BinderNode.count]
      omega

/-- A node without the reference `r` has one strong reference less if `r` was strong. -/
theorem dropRef_internal (hpos : 0 < room) (hr : s.refs r = some ref)
    (hn : s.nodes ref.node = some node) (hmem : r ∈ node.refs) :
    (node.dropRef r ref).internalStrongRefs.toInt
      = node.internalStrongRefs.toInt - ref.entry.weight := by
  obtain ⟨hlo, hhi⟩ := h.range hr hpos
  rw [weight_eq]
  by_cases hstrong : ref.strong = 0
  · simp [BinderNode.dropRef, hstrong]
  · have hne : ref.strong.toInt ≠ 0 := fun heq => hstrong (Int32.toInt_inj.mp heq)
    -- The reference itself is among those counted.
    have hone : 0 < node.internalStrongRefs.toInt := by
      change 0 < node.account.strongRefs
      rw [(h.counted hpos).counted _ _ (book_account hn), Int.natCast_pos, countP_pos_iff]
      refine ⟨r, hmem, ?_⟩
      have hlt : 0 < ref.entry.strong := lt_of_le_of_ne hlo (Ne.symm hne)
      simp [Book.active, book_entry hr, Entry.active, hlt]
    rw [if_pos (lt_of_le_of_ne hlo (Ne.symm hne))]
    simp only [BinderNode.dropRef, if_pos hstrong, Int32.sub_eq_add_neg]
    exact toInt_sub_one _ hone

theorem deleteRef (he : binderDeleteRef s r = .ok s') : Accounts room s' := by
  obtain ⟨ref, href, -⟩ := bind_eq_ok.mp he
  have hr := ref_eq_ok.mp href
  obtain ⟨node, hn, hmem⟩ := h.node_of_ref hr
  obtain ⟨works, -, -, hcases⟩ := binderDeleteRef_ok he hr hn hmem
  have hkept : Accounts room ((s.dropRef r ref).touch ref.node (node.dropRef r ref) works) := by
    constructor
    case balanced =>
      exact h.balanced.remove (book_entry hr) (book_account hn) (entries_drop rfl)
        (accounts_set rfl) rfl rfl rfl
    case counted =>
      intro hpos
      exact (h.counted hpos).remove h.balanced.accounted (book_entry hr) (book_account hn)
        (entries_drop rfl) (accounts_set rfl) rfl (h.dropRef_internal hpos hr hn hmem)
    case freshRef =>
      intro x hx
      by_cases hne : x = r
      · simp [hne, Driver.dropRef, Driver.touch]
      · simpa [Driver.dropRef, Driver.touch, update_of_ne hne] using h.freshRef x hx
    case freshNode =>
      intro x hx
      have hne : x ≠ ref.node := (ne_of_none (h.freshNode x hx) hn).symm
      simpa [Driver.dropRef, Driver.touch, update_of_ne hne] using h.freshNode x hx
    case freed => exact h.freed
  obtain rfl | ⟨hempty, hlocal, hweak, -, -, rfl⟩ := hcases
  · exact hkept
  · have hnode : ((s.dropRef r ref).touch ref.node (node.dropRef r ref) works).nodes ref.node
        = some (node.dropRef r ref) := update_self ..
    have hclean : 0 < room → FreedClean (.decNode, node.dropRef r ref) :=
      fun hpos => ⟨hempty, hkept.internal_zero hpos hnode hempty, fun _ => ⟨hlocal, hweak⟩⟩
    refine (hkept.free node.proc hnode hempty hclean).frame ?_ le_rfl rfl
    simp [Driver.book, Driver.freeNode, Driver.touch, Driver.listDel]

theorem decCount (hr : s.refs r = some ref) (hn : s.nodes ref.node = some node)
    (hmem : r ∈ node.refs) (hne : ref.total strong ≠ 0) (works : List (Queue × Work)) :
    Accounts room ((s.touch ref.node (node.afterDec ref strong) works).setRef r
      (ref.count strong (-1))) := by
  refine h.recount hr hn le_rfl ?_ fun hpos => ?_
  · unfold BinderNode.afterDec
    split <;> simp
  · obtain ⟨hlo, hhi⟩ := h.range hr hpos
    obtain ⟨-, hmost⟩ := h.internal_range hpos hn
    rw [weight_eq, weight_eq, BinderNode.afterDec]
    cases strong with
    | true =>
      have hstrong : 0 < ref.strong.toInt :=
        lt_of_le_of_ne hlo fun heq => hne (Int32.toInt_inj.mp heq.symm)
      have hsub := toInt_sub_one _ hstrong
      rw [count_strong, hsub, if_pos hstrong]
      by_cases hlast : ref.strong + -1 = 0
      · have hzero : ref.strong.toInt - 1 = 0 := by rw [← hsub, hlast]; rfl
        have hdrop := h.dropRef_internal hpos hr hn hmem
        have hcond : ref.strong ≠ 0 := hne
        rw [weight_eq, if_pos hstrong] at hdrop
        simp only [BinderNode.dropRef, if_pos hcond, Int32.sub_eq_add_neg] at hdrop
        rw [if_pos ⟨rfl, hlast⟩, BinderNode.count, hdrop, if_neg (by omega)]
        omega
      · have hmore : ref.strong.toInt - 1 ≠ 0 :=
          fun heq => hlast (Int32.toInt_inj.mp (hsub.trans heq))
        rw [if_neg fun hc => hlast hc.2, if_pos (by omega)]
        omega
    | false =>
      rw [if_neg (by simp), count_weak]
      omega

theorem decRef (he : binderDecRef s r strong = .ok (ret, s')) : Accounts room s' := by
  obtain ⟨ref, href, -⟩ := bind_eq_ok.mp he
  have hr := ref_eq_ok.mp href
  obtain ⟨node, hn, hmem⟩ := h.node_of_ref hr
  obtain ⟨-, -, rfl⟩ | ⟨hpos, -, works, -, -, hdone⟩ := binderDecRef_ok he hr hn hmem
  · exact h
  · have hdec := h.decCount hr hn hmem hpos works
    split at hdone
    · exact hdec.deleteRef hdone
    · rw [hdone]
      exact hdec

theorem insertRef (hn : s.nodes n = some node) (hdesc : desc ∉ (s.refsByDesc p).map (refDesc s)) :
    Accounts room (Binder.insertRef s p n desc node) := by
  have hnew : s.book.entries s.nextId = none := by simp [Driver.book, h.freshRef]
  have hkey : ∀ x ∈ s.refsByDesc p, refDesc (Binder.insertRef s p n desc node) x = refDesc s x := by
    intro x hx
    have hne : x ≠ s.nextId := by
      rintro rfl
      obtain ⟨e, he, -⟩ := (h.balanced.byKey.mem p _).mp hx
      rw [hnew] at he
      cases he
    simp [Binder.insertRef, refDesc, Driver.setRef, Driver.setNode, hne]
  have hself : refDesc (Binder.insertRef s p n desc node) s.nextId = desc := by
    simp [Binder.insertRef, refDesc, Driver.setRef, Driver.setNode]
  have haccounts : (Binder.insertRef s p n desc node).book.accounts = update s.book.accounts n
      (some { node with refs := s.nextId :: node.refs }.account) := accounts_set rfl
  constructor
  case balanced =>
    refine h.balanced.enter hnew (book_account hn) (entries_set rfl) haccounts rfl rfl ?_ ?_
    · intro x
      exact mem_orderedInsert _
    · rw [book_key]
      refine pairwise_orderedInsert (f := refDesc (Binder.insertRef s p n desc node)) ?_ ?_
      · refine Pairwise.imp_of_mem ?_ (h.balanced.sorted p)
        intro x y hx hy hlt
        rw [book_key] at hlt
        rwa [hkey x hx, hkey y hy]
      · intro x hx heq
        rw [hkey x hx, hself] at heq
        exact hdesc (heq ▸ List.mem_map_of_mem hx)
  case counted =>
    intro hpos
    exact (h.counted hpos).enter h.balanced.accounted hnew (book_account hn) (entries_set rfl)
      haccounts rfl
  case freshRef =>
    intro x hx
    have hne : x ≠ s.nextId := (Nat.lt_of_succ_le hx).ne'
    simpa [Binder.insertRef, Driver.setRef, Driver.setNode, hne]
      using h.freshRef x (Nat.le_of_succ_le hx)
  case freshNode =>
    intro x hx
    have hx' : s.nextId ≤ x := Nat.le_of_succ_le hx
    have hne : x ≠ n := (ne_of_none (h.freshNode x hx') hn).symm
    simpa [Binder.insertRef, Driver.setRef, Driver.setNode, hne] using h.freshNode x hx'
  case freed => exact h.freed

theorem getRefForNode (he : binderGetRefForNode s p n kzalloc = .ok (r, s')) :
    Accounts room s' := by
  obtain ⟨-, rfl⟩ | ⟨-, -, -, -, -, -, rfl⟩ | ⟨node, hn, hdesc, -, rfl⟩ :=
    binderGetRefForNode_ok he
  · exact h
  · exact h
  · exact h.insertRef hn hdesc

theorem insertNode : Accounts room (Binder.insertNode s p ptr cookie) := by
  have hnew : s.book.accounts s.nextId = none := by simp [Driver.book, h.freshNode]
  have hempty : BinderNode.account
      ⟨some p, [], 0, 0, 0, ptr, cookie, false, false, false, false, false⟩ = ⟨[], 0⟩ := rfl
  have haccounts : (Binder.insertNode s p ptr cookie).book.accounts
      = update s.book.accounts s.nextId (some ⟨[], 0⟩) := by
    rw [← hempty]
    exact accounts_set rfl
  constructor
  case balanced =>
    refine h.balanced.of_accounted ?_ rfl rfl rfl
    exact h.balanced.accounted.openNode hnew rfl haccounts
  case counted =>
    intro hpos
    refine (h.counted hpos).nodes rfl fun m a ha => ?_
    rw [haccounts, update_some_iff] at ha
    exact ha.imp And.right And.right
  case freshRef => exact fun x hx => h.freshRef x (Nat.le_of_succ_le hx)
  case freshNode =>
    intro x hx
    have hne : x ≠ s.nextId := (Nat.lt_of_succ_le hx).ne'
    simpa [Binder.insertNode, Driver.setNode, hne] using h.freshNode x (Nat.le_of_succ_le hx)
  case freed => exact h.freed

theorem newNode (he : binderNewNode s p ptr cookie kzalloc = (n, s')) : Accounts room s' := by
  unfold binderNewNode at he
  split at he <;> cases he
  · exact h
  · exact h.insertNode

theorem modifyNode (hf : ∀ node, (f node).account = node.account) :
    Accounts room (s.modifyNode n f) := by
  unfold Driver.modifyNode
  cases hn : s.nodes n with
  | none => rwa [map_none, ← hn, update_eq_self]
  | some node => exact h.touch hn (hf node)

theorem setNode (hn : s.nodes n = some node)
    (hacc : node'.account = node.account) : Accounts room (s.setNode n node') :=
  h.touch hn hacc

theorem setRef (hr : s.refs r = some ref) (hentry : ref'.entry = ref.entry) :
    Accounts room (s.setRef r ref') := by
  refine h.frame ?_ le_rfl rfl
  have he : (s.setRef r ref').book.entries = s.book.entries := entries_touch hr hentry rfl
  exact congrArg (fun e => { s.book with entries := e }) he

theorem rest (hrefs : s'.refs = s.refs) (hnodes : s'.nodes = s.nodes)
    (hbyDesc : s'.refsByDesc = s.refsByDesc) (hbyNode : s'.refsByNode = s.refsByNode)
    (hnext : s.nextId ≤ s'.nextId) (hfreed : s'.freed = s.freed) : Accounts room s' :=
  h.frame (by simp only [Driver.book, hrefs, hnodes, hbyDesc, hbyNode]) hnext hfreed

end Counting

end Accounts

end

namespace Accounts

variable {s s' : Driver}

section Commands

variable (h : Accounts room s)
include h

theorem senderNode (he : senderNode s p ptr cookie acceptFds kzalloc = (n, s')) :
    Accounts room s' :=
  senderNode_keeps h h.newNode (fun h => h.modifyNode fun _ => rfl) he

theorem translateBinder (he : translateBinder s p t target ptr cookie strong acceptFds
    kzallocNode kzallocRef = .ok (object, s')) : Accounts (room - 1) s' := by
  obtain ⟨n, s₀, hsender, htail⟩ := translateBinder_ok he
  have h₀ := h.senderNode hsender
  obtain rfl | ⟨m, r, s₁, -, hs₁, rfl | ⟨r', ret, -, hs₂⟩⟩ := htail
  · exact h₀.mono (Nat.sub_le _ _)
  · exact (h₀.getRefForNode hs₁).mono (Nat.sub_le _ _)
  · exact (h₀.getRefForNode hs₁).incRef hs₂

theorem deathStep (hstep : DeathStep s s') : Accounts room s' := by
  obtain ⟨rfl | ⟨r, ref, death, hr, rfl⟩, -, hnext⟩ := hstep
  · exact h.rest rfl rfl rfl rfl hnext rfl
  · have hset : Accounts room (s.setRef r { ref with death := death }) := h.setRef hr rfl
    exact hset.rest rfl rfl rfl rfl hnext rfl

theorem readNodeWork (he : readNodeWork s p n = .ok s') : Accounts room s' := by
  obtain ⟨node, hn, ⟨_, _, _, _, _, _, rfl⟩ | ⟨hempty, hinternal, hlocal, hweak, rfl⟩ | rfl⟩ :=
    readNodeWork_ok he
  · exact h.setNode hn (by rfl)
  · exact h.free _ hn hempty fun _ => ⟨hempty, hinternal, fun _ => ⟨hlocal, hweak⟩⟩
  · exact h.rest rfl rfl rfl rfl le_rfl rfl

theorem readWork (he : readWork s p t w = .ok s') : Accounts room s' := by
  unfold Binder.readWork at he
  split at he
  · cases w with
    | node n => exact h.readNodeWork he
    | death d => exact h.deathStep (.readDeathWork he)
  · cases he
    exact h

theorem freeThread : Accounts room (binderFreeThread p s t) :=
  h.rest rfl rfl rfl rfl le_rfl rfl

theorem freeThreads (ts : List Nat) : Accounts room (ts.foldl (binderFreeThread p) s) := by
  induction ts generalizing s with
  | nil => exact h
  | cons t ts ih => exact ih h.freeThread

theorem releaseNode (he : releaseNode p s n = .ok s') : Accounts room s' := by
  obtain ⟨node, hn, he⟩ := bind_eq_ok.mp he
  rw [node_eq_ok] at hn
  split at he
  next hempty =>
    cases he
    exact h.free _ hn hempty fun hpos => ⟨hempty, h.internal_zero hpos hn hempty, nofun⟩
  next =>
    have hdead : Accounts room (s.setNode n
        { node with proc := none, localStrongRefs := 0, localWeakRefs := 0 }) :=
      h.setNode hn (by rfl)
    refine foldlM_ok_invariant (fun _ => Accounts room) ?_ ?_ he
    · exact fun h hs => h.deathStep (.notifyDeath hs)
    exact hdead.rest rfl rfl rfl rfl le_rfl rfl

theorem deferredRelease (he : binderDeferredRelease s p = .ok s') : Accounts room s' := by
  obtain ⟨s₁, hs₁, he⟩ := bind_eq_ok.mp he
  obtain ⟨s₂, hs₂, he⟩ := bind_eq_ok.mp he
  cases he
  have h₀ : Accounts room (unlistProc s p) := h.rest rfl rfl rfl rfl le_rfl rfl
  have h₁ := foldlM_ok_invariant (fun _ => Accounts room) (fun h => h.releaseNode)
    (h₀.freeThreads _) hs₁
  have h₂ := foldlM_ok_invariant (fun _ => Accounts room) (fun h => h.deleteRef) h₁ hs₂
  exact h₂.rest rfl rfl rfl rfl le_rfl rfl

theorem setContextMgr : Accounts room (setContextMgr s p kzalloc) := by
  unfold Binder.setContextMgr
  split
  · exact h
  · split
    next hnew => exact h.newNode hnew
    next n s₁ hnew =>
      refine rest (s := s₁.modifyNode n _) ((h.newNode hnew).modifyNode ?_)
        rfl rfl rfl rfl le_rfl rfl
      exact fun node => rfl

end Commands

theorem stable : StepStable (Accounts room) (Accounts (room - 1)) fun _ _ => True where
  weaken h := h.mono (Nat.sub_le _ _)
  incNode h he := h.incNode he
  decNode h he := h.decNode he
  incRef h he := h.incRef he
  decRef h he := h.decRef he
  getRefForNode h _ he := h.getRefForNode he
  pending h hn := h.setNode hn (by rfl)
  binderOpen h := h.rest rfl rfl rfl rfl (Nat.le_succ _) rfl
  getThread h _ := h.rest rfl rfl rfl rfl (Nat.le_succ _) rfl
  enterLooper h _ := h.rest rfl rfl rfl rfl le_rfl rfl
  setContextMgr h _ := h.setContextMgr
  translateBinder h _ _ he := h.translateBinder he
  requestDeath h _ he := h.deathStep (.requestDeath he)
  clearDeath h _ he := h.deathStep (.clearDeath he)
  deadBinderDone h _ he := h.deathStep (.deadBinderDone he)
  readWork h _ he := h.readWork he
  threadExit h _ _ := h.freeThread
  release h _ he := h.deferredRelease he

theorem init : Accounts (2 ^ 31) Driver.init where
  balanced :=
    { accounted := ⟨nofun, nofun, nofun⟩
      byKey := ⟨fun _ _ => ⟨nofun, nofun⟩, fun _ => nodup_nil⟩
      sorted := fun _ => .nil
      byNode := ⟨fun _ _ => ⟨nofun, nofun⟩, fun _ => nodup_nil⟩ }
  counted _ := ⟨le_rfl, nofun, nofun, nofun⟩
  freshRef _ _ := rfl
  freshNode _ _ := rfl
  freed _ := nofun

/-- A command takes one increment of the room that is left. -/
theorem run {ops : List DriverOp} (hlen : ops.length ≤ 2 ^ 31)
    (h : ops.foldlM driverStep Driver.init = .ok s) : Accounts (2 ^ 31 - ops.length) s := by
  refine foldlM_ok_invariant (fun rest => Accounts (2 ^ 31 - ops.length + rest.length)) ?_ ?_ h
  · intro op rest s s' h he
    exact stable.step h trivial he
  · rw [Nat.sub_add_cancel hlen]
    exact init

end Accounts

/-- Every reference is counted and listed once, in both trees too, and no counted node was freed. -/
structure RefsAccounted (s : Driver) : Prop where
  counted : ∀ n node, s.nodes n = some node → node.internalStrongRefs.toInt
    = {r | ∃ ref, s.refs r = some ref ∧ ref.node = n ∧ 0 < ref.strong}.ncard
  listed : ∀ r ref, s.refs r = some ref →
    (∃ node, s.nodes ref.node = some node ∧ node.refs.count r = 1) ∧
      (s.refsByDesc ref.proc).count r = 1 ∧ (s.refsByNode ref.proc).count r = 1
  freed : ∀ x ∈ s.freed, FreedClean x

theorem binder_references_accounted (ops : List DriverOp) (hlen : ops.length < 2 ^ 31) (s : Driver)
    (hrun : ops.foldlM driverStep Driver.init = .ok s) : RefsAccounted s := by
  have h := Accounts.run hlen.le hrun
  have hroom : 0 < 2 ^ 31 - ops.length := by omega
  constructor
  case counted =>
    intro n node hn
    have hcount := (h.counted hroom).strongRefs_eq_ncard (book_account hn) h.balanced.accounted
    simpa [Driver.book, BinderRef.entry, BinderNode.account, Int32.lt_iff_toInt_lt] using hcount
  case listed =>
    intro r ref hr
    obtain ⟨node, hn, hmem⟩ := h.node_of_ref hr
    have hnodup := h.balanced.accounted.nodup _ _ (book_account hn)
    have hdesc := (h.balanced.byKey.mem ref.proc r).mpr ⟨_, book_entry hr, rfl⟩
    have hnode := (h.balanced.byNode.mem ref.proc r).mpr ⟨_, book_entry hr, rfl⟩
    exact ⟨⟨node, hn, count_eq_one_of_mem hnodup hmem⟩,
      count_eq_one_of_mem (h.balanced.byKey.nodup _) hdesc,
      count_eq_one_of_mem (h.balanced.byNode.nodup _) hnode⟩
  case freed => exact h.freed hroom

theorem binder_references_accounted_sample : ∃ s,
    [DriverOp.binderOpen, .binderOpen, .getThread 0, .getThread 1, .setContextMgr 1 3 true,
      .translateBinder 0 2 1 7 9 true false true true, .decRefs 1 3 1 true].foldlM
        driverStep Driver.init = .ok s ∧ s.freed.length = 1 ∧ RefsAccounted s := by
  have hrun : ∃ s, [DriverOp.binderOpen, .binderOpen, .getThread 0, .getThread 1,
      .setContextMgr 1 3 true, .translateBinder 0 2 1 7 9 true false true true,
      .decRefs 1 3 1 true].foldlM driverStep Driver.init = .ok s ∧ s.freed.length = 1 :=
    ⟨_, rfl, rfl⟩
  obtain ⟨s, hs, hfreed⟩ := hrun
  exact ⟨s, hs, hfreed, binder_references_accounted _ (by decide) s hs⟩

/-- The node of a context manager that exits is freed with the counts of its owner. -/
theorem binder_frees_counted_node : ¬ ∀ (ops : List DriverOp) (s : Driver),
    ops.foldlM driverStep Driver.init = .ok s → ∀ x ∈ s.freed, x.2.refs = [] ∧
      x.2.internalStrongRefs = 0 ∧ x.2.localStrongRefs = 0 ∧ x.2.localWeakRefs = 0 := by
  intro h
  have hfreed := h [.binderOpen, .getThread 0, .setContextMgr 0 1 true, .release 0] _ rfl _
    mem_cons_self
  exact absurd hfreed.2.2.1 (by decide)

end SpicaKernel.Binder

import SpicaKernel.SocketFilter

namespace SpicaKernel.SocketFilter
open Option
set_option autoImplicit true

structure Accepted (filter : List SockFilter) : Prop where
  pos : 0 < filter.length
  le : filter.length ≤ BPF_MAXINSNS
  checked : ∀ {pc f}, filter[pc]? = some f → checkInsn filter.length pc f = true
  last : ∀ {pc f}, filter[pc]? = some f → pc + 1 = filter.length → bpfClass f.code = BPF_RET

theorem checkFrom_get (h : checkFrom flen pc fs = true)
    (hf : fs[i]? = some f) : checkInsn flen (pc + i) f = true := by
  induction fs generalizing pc i with
  | nil => cases hf
  | cons g gs ih =>
    simp only [checkFrom, Bool.and_eq_true] at h
    cases i with
    | zero =>
      obtain rfl : g = f := some.inj hf
      exact h.1
    | succ i =>
      rw [← Nat.succ_add_eq_add_succ]
      exact ih h.2 hf

theorem accepted_of_check (h : skChkFilter filter = 0) : Accepted filter := by
  simp only [skChkFilter] at h
  split at h
  · cases h
  · rename_i hlen
    split at h
    · cases h
    · rename_i hcheck
      split at h
      · cases h
      · rename_i g hg
        split at h
        · rename_i hret
          refine ⟨by omega, by omega, fun hf => ?_, fun {pc f} hf hpc => ?_⟩
          · have hc : checkFrom filter.length 0 filter = true := by simpa using hcheck
            simpa using checkFrom_get hc hf
          · have hl : filter[filter.length - 1]? = some g := by
              rw [← List.getLast?_eq_getElem?]
              exact hg
            obtain rfl : pc = filter.length - 1 := by omega
            obtain rfl : g = f := some.inj (hl.symm.trans hf)
            exact hret
        · cases h

theorem int32_of_lt (h₀ : 0 ≤ x) (h₁ : x < 2 ^ 31) : int32 x = x := by
  unfold int32
  rw [Int.bmod_def]
  split <;> omega

theorem jump_eq {s : State} {offset : Nat} (h₀ : 0 ≤ s.pc) (h₁ : s.pc + offset + 1 < 2 ^ 31) :
    s.jump offset = .next { s with pc := s.pc + offset + 1 } := by
  unfold State.jump
  rw [int32_of_lt (x := s.pc + offset) (by omega) (by omega), int32_of_lt (by omega) h₁]

def Exit.Checked (e : Exit) : Prop := (∃ v, e = .ret v) ∨ e = .refuse ∨ e = .fault .access

def Forward (flen : Nat) (pc : Int) : Turn State Exit → Prop
  | .next s' => pc < s'.pc ∧ s'.pc < flen
  | .stop e => e.Checked

/-- How far behind the next instruction control can go, whatever the registers hold. -/
def offsets (f : SockFilter) : Opcode → List Nat
  | .ja => [f.k.toNat]
  | .jmp _ _ => [f.jt.toNat, f.jf.toNat]
  | .retK => []
  | .retA => []
  | _ => [0]

/-- What the registers become and where control goes on, or how the run ends. -/
inductive Effect where
  | stop (e : Exit)
  | go (a x : UInt32) (offset : Nat)

def Effect.apply (s : State) : Effect → Turn State Exit
  | .stop e => .stop e
  | .go a x offset => { s with A := a, X := x }.jump offset

def Effect.Within (os : List Nat) : Effect → Prop
  | .stop e => e.Checked
  | .go _ _ offset => offset ∈ os

/-- The scratch memory does not matter for what is done. -/
def Local (os : List Nat) (s : State) (m : (Fin BPF_MEMWORDS → UInt32) → Turn State Exit) : Prop :=
  ∃ E : Effect, E.Within os ∧ ∀ mem, m mem = E.apply { s with mem := mem }

section Local

variable {s : State}

theorem local_stop (h : e.Checked) : Local os s fun _ => .stop e := ⟨.stop e, h, fun _ => rfl⟩

theorem local_refuse : Local os s fun _ => .stop .refuse := local_stop (.inr (.inl rfl))

theorem local_access : Local os s fun _ => .stop (.fault .access) := local_stop (.inr (.inr rfl))

theorem local_setA (a : UInt32) : Local [0] s fun mem => { s with mem := mem }.setA a :=
  ⟨.go a s.X 0, List.mem_singleton.mpr rfl, fun _ => rfl⟩

theorem local_setX (x : UInt32) : Local [0] s fun mem => { s with mem := mem }.setX x :=
  ⟨.go s.A x 0, List.mem_singleton.mpr rfl, fun _ => rfl⟩

theorem local_jump (ho : o ∈ os) : Local os s fun mem => { s with mem := mem }.jump o :=
  ⟨.go s.A s.X o, ho, fun _ => rfl⟩

theorem local_attribute (r : Option (Option UInt32)) :
    Local [0] s fun mem => { s with mem := mem }.attribute skb r := by
  rcases r with _ | _ | nla
  · exact local_access
  · exact local_setA _
  · exact local_setA _

theorem local_nlattr : Local [0] s fun mem => nlattr skb { s with mem := mem } := by
  simp only [nlattr, nlattrIn]
  split
  · exact local_refuse
  split
  · exact local_refuse
  · exact local_attribute _

theorem local_nlattrNest : Local [0] s fun mem => nlattrNest skb { s with mem := mem } := by
  simp only [nlattrNest, nlattrNestIn]
  split
  · exact local_refuse
  split
  · exact local_refuse
  split
  · exact local_access
  split
  · exact local_refuse
  · exact local_attribute _

theorem local_ancillary : Local [0] s fun mem => ancillary skb { s with mem := mem } k := by
  simp only [ancillary]
  split
  · exact local_setA _
  split
  · exact local_setA _
  split
  · simp only [ifindex]
    split
    · exact local_access
    · exact local_setA _
  split
  · exact local_nlattr
  split
  · exact local_nlattrNest
  · exact local_refuse

theorem local_load : Local [0] s fun mem => load skb { s with mem := mem } k size := by
  simp only [load]
  split
  · exact local_ancillary
  split
  · exact local_access
  · exact local_setA _

theorem local_loadMsh : Local [0] s fun mem => loadMsh skb { s with mem := mem } f := by
  simp only [loadMsh]
  split
  · exact local_refuse
  split
  · exact local_access
  · exact local_setX _

theorem local_divide (hk : allows flen pc f (.alu .div src) = true) :
    Local [0] s fun mem => divide cpu { s with mem := mem } f src := by
  cases src with
  | x =>
    simp only [divide]
    split
    · exact local_refuse
    · exact local_setA _
  | k =>
    have hne : f.k ≠ 0 := by simpa [allows] using hk
    simp only [divide, if_neg hne]
    exact local_setA _

def Opcode.Plain (op : Opcode) : Prop := op ≠ .ldMem ∧ op ≠ .ldxMem ∧ op ≠ .st ∧ op ≠ .stx

theorem local_perform (cpu : Shifter) (skb : SkBuff) (s : State) (hop : op.Plain)
    (hk : allows flen pc f op = true) :
    Local (offsets f op) s fun mem => perform cpu skb { s with mem := mem } f op := by
  obtain ⟨hld, hldx, hst, hstx⟩ := hop
  cases op with
  | alu op src =>
    cases op with
    | div => exact local_divide hk
    | _ => cases src <;> simp only [perform, State.operand] <;> exact local_setA _
  | ja => exact local_jump (List.mem_singleton.mpr rfl)
  | jmp op src =>
    have ho (b : Bool) : (if b then f.jt.toNat else f.jf.toNat) ∈ offsets f (.jmp op src) := by
      cases b <;> simp [offsets]
    exact ⟨.go s.A s.X _, ho (taken op s.A (s.operand f src)), fun _ => by cases src <;> rfl⟩
  | ldAbs => exact local_load
  | ldInd => exact local_load (k := int (s.X + f.k))
  | ldxMsh => exact local_loadMsh
  | ldMem => exact absurd rfl hld
  | ldxMem => exact absurd rfl hldx
  | st => exact absurd rfl hst
  | stx => exact absurd rfl hstx
  | retK => exact local_stop (.inl ⟨_, rfl⟩)
  | retA => exact ⟨.stop (.ret s.A), .inl ⟨_, rfl⟩, fun _ => rfl⟩
  | neg => exact local_setA (-s.A)
  | ldLen | ldImm => exact local_setA _
  | txa => exact local_setA s.X
  | ldxLen | ldxImm => exact local_setX _
  | tax => exact local_setX s.A

end Local

/-- An explicit end, or a jump from where the state is. -/
theorem perform_jumps (cpu : Shifter) (skb : SkBuff) (s : State)
    (hk : allows flen pc f op = true) :
    (∃ e, e.Checked ∧ perform cpu skb s f op = .stop e) ∨
      ∃ s' o, perform cpu skb s f op = State.jump s' o ∧ s'.pc = s.pc ∧ o ∈ offsets f op := by
  cases op with
  | ldMem | ldxMem =>
    have hlt : f.k.toNat < BPF_MEMWORDS := by simpa [allows] using hk
    simp only [perform, State.readMem, dif_pos hlt]
    exact .inr ⟨_, 0, rfl, rfl, List.mem_singleton.mpr rfl⟩
  | st | stx =>
    have hlt : f.k.toNat < BPF_MEMWORDS := by simpa [allows] using hk
    simp only [perform, State.writeMem, dif_pos hlt]
    exact .inr ⟨_, 0, rfl, rfl, List.mem_singleton.mpr rfl⟩
  | _ =>
    obtain ⟨E, hE, heq⟩ := local_perform cpu skb s (by simp [Opcode.Plain]) hk
    cases E with
    | stop e => exact .inl ⟨e, hE, heq s.mem⟩
    | go a x o => exact .inr ⟨_, o, heq s.mem, rfl, hE⟩

theorem Accepted.target_lt {pc : Nat} (hf : Accepted filter) (hget : filter[pc]? = some f)
    (hd : decode f.code = some op) (ho : o ∈ offsets f op) : pc + o + 1 < filter.length := by
  have hlt : pc < filter.length := (List.getElem?_eq_some_iff.mp hget).1
  have hcheck := hf.checked hget
  simp only [checkInsn, hd] at hcheck
  by_cases hend : pc + 1 = filter.length
  -- the last instruction is a return, so nothing goes on behind it
  · rcases ret_of_class hd (hf.last hget hend) with rfl | rfl <;> cases ho
  · cases op with
    | ja =>
      simp only [allows, decide_eq_true_eq] at hcheck
      simp only [offsets, List.mem_singleton] at ho
      omega
    | jmp op src =>
      simp only [allows, Bool.and_eq_true, decide_eq_true_eq] at hcheck
      simp only [offsets, List.mem_cons, List.not_mem_nil, or_false] at ho
      omega
    | retK | retA => cases ho
    | _ =>
      simp only [offsets, List.mem_singleton] at ho
      omega

theorem forward_turn (cpu : Shifter) (skb : SkBuff) (hf : Accepted filter) {s : State}
    (h₀ : 0 ≤ s.pc) (hpc : s.pc < filter.length) :
    Forward filter.length s.pc (turn cpu skb filter s) := by
  obtain ⟨f, hget⟩ : ∃ f, filter[s.pc.toNat]? = some f :=
    ⟨_, List.getElem?_eq_getElem (by omega)⟩
  have hcheck := hf.checked hget
  simp only [turn, if_neg (Int.not_le.mpr hpc), if_neg (Int.not_lt.mpr h₀), hget, execute]
  rw [checkInsn] at hcheck
  cases hd : decode f.code with
  | none => simp [hd] at hcheck
  | some op =>
    simp only [hd] at hcheck ⊢
    rcases perform_jumps cpu skb s hcheck with ⟨e, he, hstop⟩ | ⟨s', o, hjump, hs', ho⟩
    · rw [hstop]
      exact he
    · have hlt := hf.target_lt hget hd ho
      have hlen : filter.length ≤ 4096 := hf.le
      rw [hjump, jump_eq (by omega) (by omega)]
      exact ⟨show s.pc < s'.pc + o + 1 by omega, show s'.pc + o + 1 < _ by omega⟩

theorem offset_toNat (h : a.toNat + i < 2 ^ 32) : (a + UInt32.ofNat i).toNat = a.toNat + i := by
  rw [UInt32.toNat_add, UInt32.toNat_ofNat', Nat.mod_eq_of_lt (a := i) (by omega),
    Nat.mod_eq_of_lt h]

theorem byte_isSome (skb : SkBuff) (h : i < skb.len) : (skb.byte i).isSome := by
  have hroom := skb.room
  have hhead := UInt32.le_iff_toNat_le.mp skb.head_le
  unfold SkBuff.byte
  split
  · rename_i hi
    unfold SkBuff.headlen at hi
    have ha : (skb.data + UInt32.ofNat i).toNat = skb.data.toNat + i := offset_toNat (by omega)
    exact skb.mapped _ (UInt32.le_iff_toNat_le.mpr (by omega)) (by omega)
  · unfold SkBuff.len at h
    rw [List.getElem?_eq_getElem (by omega)]
    rfl

theorem bigEndian_isSome (h : ∀ i < n, (ptr i).isSome) : (bigEndian ptr n).isSome := by
  induction n with
  | zero => rfl
  | succ n ih =>
    obtain ⟨high, hh⟩ := isSome_iff_exists.mp (ih (fun i hi => h i (by omega)))
    obtain ⟨low, hl⟩ := isSome_iff_exists.mp (h n (by omega))
    simp [bigEndian, hh, hl]

theorem loadPointer_isSome (h : loadPointer skb k size = some ptr) (hs : size ≤ 4)
    (hi : i < size) : (ptr i).isSome := by
  unfold loadPointer at h
  split at h
  · rename_i hk
    unfold skbHeaderPointer at h
    split at h
    · rename_i hlen
      obtain rfl := some.inj h
      exact byte_isSome skb (by unfold SkBuff.len; omega)
    split at h
    · cases h
    · obtain rfl := some.inj h
      exact byte_isSome skb (by omega)
  split at h
  · cases h
  · simp only [loadHeaderPointer] at h
    generalize headerPointer skb k = p at h
    split at h
    · rename_i hin
      obtain rfl := some.inj h
      have hroom := skb.room
      have hhead := UInt32.le_iff_toNat_le.mp hin.1
      have htail := UInt32.lt_iff_toNat_lt.mp hin.2
      have ha : (p + UInt32.ofNat i).toNat = p.toNat + i := offset_toNat (by omega)
      exact skb.mapped _ (UInt32.le_iff_toNat_le.mpr (by omega)) (by omega)
    · cases h

theorem Size.bytes_le (size : Size) : size.bytes ≤ 4 := by
  cases size <;> decide

theorem readField_isSome (h₀ : (memory a).isSome)
    (h₁ : (memory (a + 1)).isSome) : (readField memory a).isSome := by
  obtain ⟨low, hl⟩ := isSome_iff_exists.mp h₀
  obtain ⟨high, hh⟩ := isSome_iff_exists.mp h₁
  simp [readField, hl, hh]

theorem add_ofNat (a : UInt32) (i j : Nat) :
    a + UInt32.ofNat i + UInt32.ofNat j = a + UInt32.ofNat (i + j) := by
  rw [UInt32.ofNat_add, UInt32.add_assoc]

theorem field_isSome
    (h : ∀ i < limit, (memory (data + UInt32.ofNat i)).isSome) (ho : o + 1 < limit) :
    (readField memory (data + UInt32.ofNat o)).isSome := by
  refine readField_isSome (h o (by omega)) ?_
  have := h (o + 1) ho
  rwa [← add_ofNat] at this

/-- The attributes that `nla_find` comes to, with the bytes that remain for them. -/
inductive Visits (memory : UInt32 → Option UInt8) (attrtype : Int) :
    UInt32 → Int → UInt32 → Int → Prop where
  | start : Visits memory attrtype nla remaining nla remaining
  | next {len type : Nat} : (NLA_HDRLEN : Int) ≤ remaining → readField memory nla = some len →
      NLA_HDRLEN ≤ len → (len : Int) ≤ remaining → readField memory (nla + 2) = some type →
      ((type &&& NLA_TYPE_MASK : Nat) : Int) ≠ attrtype →
      Visits memory attrtype (nla + UInt32.ofNat (nlaAlign len)) (remaining - nlaAlign len) a r →
      Visits memory attrtype nla remaining a r

/-- The fields that it reads of them are mapped. -/
def Mapped (memory : UInt32 → Option UInt8) (attrtype : Int) (nla : UInt32) (remaining : Int) :
    Prop :=
  ∀ a r, Visits memory attrtype nla remaining a r → (NLA_HDRLEN : Int) ≤ r →
    ∃ len, readField memory a = some len ∧
      (NLA_HDRLEN ≤ len → (len : Int) ≤ r → (readField memory (a + 2)).isSome)

theorem mapped_within {o limit : Nat} (h : ∀ i < limit, (memory (data + UInt32.ofNat i)).isSome)
    {remaining : Int} (hr : o + remaining ≤ limit) :
    Mapped memory attrtype (data + UInt32.ofNat o) remaining := by
  intro a r hv hrem
  generalize hnla : data + UInt32.ofNat o = nla at hv
  simp only [NLA_HDRLEN] at hrem
  induction hv generalizing o with
  | start =>
    subst hnla
    obtain ⟨len, hlen⟩ := isSome_iff_exists.mp (field_isSome h (o := o) (by omega))
    refine ⟨len, hlen, fun _ _ => ?_⟩
    have htype := field_isSome h (o := o + 2) (by omega)
    rwa [← add_ofNat] at htype
  | next _ _ _ _ _ _ _ ih =>
    subst hnla
    exact ih (by push_cast; omega) hrem (add_ofNat data o _).symm

theorem mapped_short (h : ¬ (NLA_HDRLEN : Int) ≤ remaining) :
    Mapped memory attrtype nla remaining := by
  intro a r hv hr
  cases hv with
  | start => exact absurd hr h
  | next hrem => exact absurd hrem h

theorem mapped_last (hlen : readField memory nla = some len)
    (h : NLA_HDRLEN ≤ len → (len : Int) ≤ remaining →
      ∃ type, readField memory (nla + 2) = some type ∧
        ((type &&& NLA_TYPE_MASK : Nat) : Int) = attrtype) :
    Mapped memory attrtype nla remaining := by
  intro a r hv hr
  cases hv with
  | start =>
    refine ⟨len, hlen, fun hge hle => ?_⟩
    obtain ⟨type, htype, -⟩ := h hge hle
    exact isSome_iff_exists.mpr ⟨type, htype⟩
  | next _ hlen' hge hle htype hne =>
    obtain rfl := some.inj (hlen.symm.trans hlen')
    obtain ⟨type, htype', he⟩ := h hge hle
    obtain rfl := some.inj (htype.symm.trans htype')
    exact absurd he hne

theorem mapped_next {len type : Nat} (hrem : (NLA_HDRLEN : Int) ≤ remaining)
    (hlen : readField memory nla = some len) (hge : NLA_HDRLEN ≤ len)
    (hle : (len : Int) ≤ remaining) (htype : readField memory (nla + 2) = some type)
    (hne : ((type &&& NLA_TYPE_MASK : Nat) : Int) ≠ attrtype) :
    Mapped memory attrtype (nla + UInt32.ofNat (nlaAlign len)) (remaining - nlaAlign len) ↔
      Mapped memory attrtype nla remaining := by
  constructor
  · intro h a r hv hr
    cases hv with
    | start => exact ⟨len, hlen, fun _ _ => isSome_iff_exists.mpr ⟨type, htype⟩⟩
    | next _ hlen' _ _ _ _ hv =>
      obtain rfl := some.inj (hlen.symm.trans hlen')
      exact h a r hv hr
  · intro h a r hv hr
    exact h a r (.next hrem hlen hge hle htype hne hv) hr

theorem nlaFind_isSome_iff :
    (nlaFind memory nla remaining attrtype).isSome ↔ Mapped memory attrtype nla remaining := by
  fun_induction nlaFind memory nla remaining attrtype with
  | case1 nla remaining hrem hlen =>
    refine iff_of_false nofun fun h => ?_
    obtain ⟨len, hlen', -⟩ := h _ _ .start hrem
    cases hlen.symm.trans hlen'
  | case2 nla remaining hrem len hlen hok htype =>
    refine iff_of_false nofun fun h => ?_
    obtain ⟨len', hlen', hmap⟩ := h _ _ .start hrem
    obtain rfl := some.inj (hlen.symm.trans hlen')
    rw [htype] at hmap
    cases hmap hok.1 hok.2
  | case3 nla remaining hrem len hlen hok type htype he =>
    exact iff_of_true rfl (mapped_last hlen fun _ _ => ⟨type, htype, he⟩)
  | case4 nla remaining hrem len hlen hok type htype hne ih =>
    exact ih.trans (mapped_next hrem hlen hok.1 hok.2 htype hne)
  | case5 nla remaining hrem len hlen hbad =>
    exact iff_of_true rfl (mapped_last hlen fun hge hle => absurd ⟨hge, hle⟩ hbad)
  | case6 nla remaining hshort => exact iff_of_true rfl (mapped_short hshort)

def Quiet (m : Turn State Exit) : Prop := m ≠ .stop (.fault .access)

theorem quiet_jump {s : State} : Quiet (s.jump offset) := nofun

theorem quiet_attribute_iff {s : State} : Quiet (s.attribute skb r) ↔ r.isSome := by
  rcases r with _ | _ | nla
  · exact iff_of_false (fun h => h rfl) nofun
  · exact iff_of_true quiet_jump rfl
  · exact iff_of_true quiet_jump rfl

theorem bound_exact {skb : SkBuff} (h4 : NLA_HDRLEN ≤ skb.len) :
    (UInt32.ofNat skb.len - 4).toNat = skb.len - 4 := by
  have hsmall : skb.len < 2 ^ 31 := skb.small
  have hof : (UInt32.ofNat skb.len).toNat = skb.len := by
    rw [UInt32.toNat_ofNat', Nat.mod_eq_of_lt (by omega)]
  rw [UInt32.toNat_sub_of_le _ _ (UInt32.le_iff_toNat_le.mpr (by rw [hof]; exact h4)), hof]
  rfl

theorem offset_within {skb : SkBuff} (h4 : NLA_HDRLEN ≤ skb.len)
    (ha : ¬ a > UInt32.ofNat skb.len - 4) : a.toNat + 4 ≤ skb.len := by
  have hle := UInt32.le_iff_toNat_le.mp (UInt32.not_lt.mp ha)
  rw [bound_exact h4] at hle
  simp only [NLA_HDRLEN] at h4
  omega

theorem int_len_sub (hn : n < 2 ^ 31) (ha : a.toNat ≤ n) :
    int (UInt32.ofNat n - a) = n - a.toNat := by
  have hof : (UInt32.ofNat n).toNat = n := by
    rw [UInt32.toNat_ofNat', Nat.mod_eq_of_lt (by omega)]
  have hsub : (UInt32.ofNat n - a).toNat = n - a.toNat := by
    rw [UInt32.toNat_sub_of_le _ _ (UInt32.le_iff_toNat_le.mpr (by omega)), hof]
  have hbv : (UInt32.ofNat n - a).toBitVec.toNat = n - a.toNat := hsub
  rw [int, BitVec.toInt_eq_toNat_of_lt (by omega)]
  omega

/-- The attributes that the search through all of them reads are there. -/
def AttrsServed (skb : SkBuff) (s : State) : Prop :=
  skb.nonlinear = false → s.A ≤ UInt32.ofNat skb.len - 4 →
    Mapped skb.memory (int s.X) (skb.data + s.A) (int (UInt32.ofNat skb.len - s.A))

/-- And those that the search inside one of them reads. -/
def NestServed (skb : SkBuff) (s : State) : Prop :=
  skb.nonlinear = false → s.A ≤ UInt32.ofNat skb.len - 4 →
    ∃ len, readField skb.memory (skb.data + s.A) = some len ∧
      (UInt32.ofNat len ≤ s.A - UInt32.ofNat skb.len →
        Mapped skb.memory (int s.X) (skb.data + s.A + UInt32.ofNat NLA_HDRLEN)
          ((len : Int) - NLA_HDRLEN))

/-- What an ancillary load with the offset `k` reads is there. -/
structure Served (skb : SkBuff) (s : State) (k : Int) : Prop where
  ifindex : k = SKF_AD_OFF + SKF_AD_IFINDEX → skb.dev.isSome
  nlattr : k = SKF_AD_OFF + SKF_AD_NLATTR → AttrsServed skb s
  nest : k = SKF_AD_OFF + SKF_AD_NLATTR_NEST → NestServed skb s

theorem quiet_nlattr_iff : Quiet (nlattr skb s) ↔ AttrsServed skb s := by
  rw [nlattr, nlattrIn, AttrsServed]
  split
  next hl => exact iff_of_true nofun fun hl' => by simp [hl'] at hl
  next hl =>
    split
    next hgt => exact iff_of_true nofun fun _ hle => absurd hgt (UInt32.not_lt.mpr hle)
    next hle =>
      rw [quiet_attribute_iff, nlaFind_isSome_iff]
      exact ⟨fun h _ _ => h, fun h => h (by simpa using hl) (UInt32.not_lt.mp hle)⟩

theorem quiet_nlattrNest_iff : Quiet (nlattrNest skb s) ↔ NestServed skb s := by
  rw [nlattrNest, nlattrNestIn, NestServed]
  split
  next hl => exact iff_of_true nofun fun hl' => by simp [hl'] at hl
  next hl =>
    have hlin : skb.nonlinear = false := by simpa using hl
    split
    next hgt => exact iff_of_true nofun fun _ hle => absurd hgt (UInt32.not_lt.mpr hle)
    next hle =>
      replace hle := UInt32.not_lt.mp hle
      cases hlen : readField skb.memory (skb.data + s.A) with
      | none =>
        refine iff_of_false (fun h => h rfl) fun h => ?_
        obtain ⟨len, hlen', -⟩ := h hlin hle
        cases hlen'
      | some len =>
        dsimp only
        split
        next hgt =>
          refine iff_of_true nofun fun _ _ => ⟨len, rfl, fun hle => ?_⟩
          exact absurd hgt (UInt32.not_lt.mpr hle)
        next hnot =>
          rw [quiet_attribute_iff, nlaFind_isSome_iff]
          refine ⟨fun h _ _ => ⟨len, rfl, fun _ => h⟩, fun h => ?_⟩
          obtain ⟨len', hlen', hmap⟩ := h hlin hle
          obtain rfl := some.inj hlen'
          exact hmap (UInt32.not_lt.mp hnot)

theorem quiet_ancillary_iff : Quiet (ancillary skb s k) ↔ Served skb s k := by
  have hsplit : Served skb s k ↔ (k = SKF_AD_OFF + SKF_AD_IFINDEX → skb.dev.isSome) ∧
      (k = SKF_AD_OFF + SKF_AD_NLATTR → Quiet (nlattr skb s)) ∧
      (k = SKF_AD_OFF + SKF_AD_NLATTR_NEST → Quiet (nlattrNest skb s)) := by
    rw [quiet_nlattr_iff, quiet_nlattrNest_iff]
    exact ⟨fun h => ⟨h.1, h.2, h.3⟩, fun h => ⟨h.1, h.2.1, h.2.2⟩⟩
  have hifindex : Quiet (ifindex skb s) ↔ skb.dev.isSome := by
    cases hdev : skb.dev with
    | none => exact iff_of_false (fun h => h (by simp only [ifindex, hdev])) nofun
    | some index => exact iff_of_true (by simp only [ifindex, hdev]; exact quiet_jump) rfl
  rw [hsplit, ← hifindex]
  obtain ⟨ad, rfl⟩ : ∃ ad, k = SKF_AD_OFF + ad := ⟨k - SKF_AD_OFF, by omega⟩
  have hcancel : SKF_AD_OFF + ad - SKF_AD_OFF = ad := by omega
  simp only [ancillary, hcancel, Int.add_right_inj]
  split
  next h => subst h; exact iff_of_true quiet_jump ⟨nofun, nofun, nofun⟩
  split
  next h => subst h; exact iff_of_true quiet_jump ⟨nofun, nofun, nofun⟩
  split
  next h => subst h; exact ⟨fun h => ⟨fun _ => h, nofun, nofun⟩, fun h => h.1 rfl⟩
  split
  next h => subst h; exact ⟨fun h => ⟨nofun, fun _ => h, nofun⟩, fun h => h.2.1 rfl⟩
  split
  next h => subst h; exact ⟨fun h => ⟨nofun, nofun, fun _ => h⟩, fun h => h.2.2 rfl⟩
  next hif hnl hnest =>
    exact iff_of_true nofun
      ⟨fun h => absurd h hif, fun h => absurd h hnl, fun h => absurd h hnest⟩

theorem loadPointer_ancillary (h : SKF_AD_OFF ≤ k) (h' : k < 0) :
    loadPointer skb k size = none := by
  rw [loadPointer, if_neg (Int.not_le.mpr h'), if_pos h]

theorem quiet_load_iff : Quiet (load skb s k size) ↔ Served skb s k := by
  rw [load]
  split
  next => exact quiet_ancillary_iff
  next ptr hp =>
    obtain ⟨v, hv⟩ := isSome_iff_exists.mp
      (bigEndian_isSome fun i hi => loadPointer_isSome hp size.bytes_le hi)
    simp only [hv]
    -- there is no pointer for the offsets of ancillary data
    have hother (ad : Int) (h₀ : 0 ≤ ad) (h₁ : ad < 0x1000) : k ≠ SKF_AD_OFF + ad := by
      rintro rfl
      unfold SKF_AD_OFF at hp
      rw [loadPointer_ancillary (by unfold SKF_AD_OFF; omega) (by omega)] at hp
      cases hp
    exact iff_of_true quiet_jump ⟨fun h => absurd h (hother 8 (by decide) (by decide)),
      fun h => absurd h (hother 12 (by decide) (by decide)),
      fun h => absurd h (hother 16 (by decide) (by decide))⟩

theorem quiet_loadMsh : Quiet (loadMsh skb s f) := by
  unfold loadMsh
  split
  · nofun
  · rename_i ptr hp
    obtain ⟨v, hv⟩ := isSome_iff_exists.mp
      (bigEndian_isSome fun i hi => loadPointer_isSome hp (by decide) hi)
    simp only [hv]
    exact quiet_jump

theorem quiet_divide : Quiet (divide cpu s f src) := by
  cases src with
  | x =>
    rw [divide]
    split
    · nofun
    · exact quiet_jump
  | k =>
    rw [divide]
    split
    · nofun
    · exact quiet_jump

theorem quiet_readMem {s : State} (h : ∀ v, Quiet (use v)) : Quiet (s.readMem k use) := by
  rw [State.readMem]
  split
  · exact h _
  · nofun

theorem quiet_writeMem {s : State} : Quiet (s.writeMem k v) := by
  rw [State.writeMem]
  split
  · exact quiet_jump
  · nofun

/-- The offset of a load from the packet. -/
def loadOffset (s : State) (f : SockFilter) : Option Int :=
  match decode f.code with
  | some (.ldAbs _) => some (int f.k)
  | some (.ldInd _) => some (int (s.X + f.k))
  | _ => none

theorem quiet_execute_iff (cpu : Shifter) :
    Quiet (execute cpu skb s f) ↔ ∀ k, loadOffset s f = some k → Served skb s k := by
  rw [execute, loadOffset]
  cases decode f.code with
  | none => exact iff_of_true nofun nofun
  | some op =>
    cases op with
    | ldAbs size => exact quiet_load_iff.trans ⟨fun h k hk => some.inj hk ▸ h, fun h => h _ rfl⟩
    | ldInd size => exact quiet_load_iff.trans ⟨fun h k hk => some.inj hk ▸ h, fun h => h _ rfl⟩
    | ldxMsh => exact iff_of_true quiet_loadMsh nofun
    | alu op src =>
      refine iff_of_true ?_ nofun
      cases op with
      | div => exact quiet_divide
      | _ => exact quiet_jump
    | ldMem | ldxMem => exact iff_of_true (quiet_readMem fun v => quiet_jump) nofun
    | st | stx => exact iff_of_true quiet_writeMem nofun
    | retK | retA => exact iff_of_true nofun nofun
    | _ => exact iff_of_true quiet_jump nofun

/-- The ancillary loads that are executed are served. -/
def AncillaryServed (cpu : Shifter) (skb : SkBuff) (filter : List SockFilter)
    (mem : Fin BPF_MEMWORDS → UInt32) : Prop :=
  ∀ n s f k, Reached (turn cpu skb filter) (entry mem) n s → filter[s.pc.toNat]? = some f →
    loadOffset s f = some k → Served skb s k

theorem Accepted.reached (hf : Accepted filter)
    (h : Reached (turn cpu skb filter) (entry mem) n s) :
    (n : Int) ≤ s.pc ∧ s.pc < filter.length := by
  refine h.invariant (fun n s => (n : Int) ≤ s.pc ∧ s.pc < (filter.length : Int)) ?_ ?_
  · intro n s s' hs he
    have hmove := forward_turn cpu skb hf (by omega) hs.2
    rw [he] at hmove
    exact ⟨by have := hmove.1; push_cast; omega, hmove.2⟩
  · exact ⟨by simp [entry], by simpa [entry] using hf.pos⟩

theorem Accepted.turn_eq (hf : Accepted filter)
    (h : Reached (turn cpu skb filter) (entry mem) n s) :
    ∃ f, filter[s.pc.toNat]? = some f ∧ turn cpu skb filter s = execute cpu skb s f := by
  obtain ⟨h₀, hpc⟩ := hf.reached h
  obtain ⟨f, hget⟩ : ∃ f, filter[s.pc.toNat]? = some f :=
    ⟨_, List.getElem?_eq_getElem (by omega)⟩
  refine ⟨f, hget, ?_⟩
  rw [turn, if_neg (by omega), if_neg (by omega), hget]

theorem Accepted.returns (hf : Accepted filter) (cpu : Shifter) (skb : SkBuff)
    (mem : Fin BPF_MEMWORDS → UInt32) :
    ∃ e, skRunFilter cpu skb filter mem filter.length = some e ∧ e.Checked := by
  have hpos := hf.pos
  refine runFor_stops (fun s => 0 ≤ s.pc ∧ s.pc < (filter.length : Int))
    (fun s => filter.length - 1 - s.pc.toNat) ?_ ?_ ?_ ?_
  · intro s s' hs he
    have hmove := forward_turn cpu skb hf hs.1 hs.2
    rw [he] at hmove
    have h₁ := hmove.1
    have h₂ := hmove.2
    exact ⟨⟨by omega, h₂⟩, by omega⟩
  · intro s e hs he
    have hmove := forward_turn cpu skb hf hs.1 hs.2
    rw [he] at hmove
    exact hmove
  · exact ⟨by simp [entry], by simpa [entry] using hpos⟩
  · simp only [entry]
    omega

theorem Accepted.stops (hf : Accepted filter)
    (h : Reached (turn cpu skb filter) (entry mem) n s) (he : turn cpu skb filter s = .stop e) :
    skRunFilter cpu skb filter mem filter.length = some e := by
  have hpc := hf.reached h
  exact h.stops he (by omega)

/-- An accepted filter stays inside its text and its scratch memory and divides by nothing that is
zero. It ends at a return instruction or an explicit `return 0`, unless it executes an ancillary
load of what is not there. -/
theorem sk_chk_filter_sound (cpu : Shifter) (skb : SkBuff) (filter : List SockFilter)
    (mem : Fin BPF_MEMWORDS → UInt32) (h : skChkFilter filter = 0) :
    (∀ n s, Reached (turn cpu skb filter) (entry mem) n s →
      n < filter.length ∧ 0 ≤ s.pc ∧ s.pc < filter.length ∧
      ∀ e, turn cpu skb filter s = .stop e → (∃ v, e = .ret v) ∨ e = .refuse ∨ e = .fault .access) ∧
    (∃ e, skRunFilter cpu skb filter mem filter.length = some e ∧
      ((∃ v, e = .ret v) ∨ e = .refuse ∨ e = .fault .access)) ∧
    ((∃ e, skRunFilter cpu skb filter mem filter.length = some e ∧
      ((∃ v, e = .ret v) ∨ e = .refuse)) ↔ AncillaryServed cpu skb filter mem) := by
  have hf := accepted_of_check h
  refine ⟨fun n s hr => ?_, hf.returns cpu skb mem, ?_, fun hs => ?_⟩
  · have hpc := hf.reached hr
    refine ⟨by omega, by omega, hpc.2, fun e he => ?_⟩
    have hmove := forward_turn cpu skb hf (by omega) hpc.2
    rw [he] at hmove
    exact hmove
  · rintro ⟨e, hrun, hend⟩ n s f k hr hget
    obtain ⟨g, hget', hturn⟩ := hf.turn_eq hr
    obtain rfl := some.inj (hget.symm.trans hget')
    refine (quiet_execute_iff cpu).mp (fun hfault => ?_) k
    obtain rfl := some.inj (hrun.symm.trans (hf.stops hr (hturn.trans hfault)))
    rcases hend with ⟨v, hv⟩ | hrefuse
    · cases hv
    · cases hrefuse
  · obtain ⟨e, hrun, hend⟩ := hf.returns cpu skb mem
    obtain ⟨n, s, -, hr, hstop⟩ := runFor_reached hrun
    obtain ⟨f, hget, hturn⟩ := hf.turn_eq hr
    refine ⟨e, hrun, ?_⟩
    rcases hend with hv | hrefuse | rfl
    · exact .inl hv
    · exact .inr hrefuse
    · have hquiet := (quiet_execute_iff cpu).mpr fun k => hs n s f k hr hget
      exact absurd (hturn.symm.trans hstop) hquiet

def plainShifter : Shifter := ⟨(· <<< ·), (· >>> ·), fun _ _ _ => rfl, fun _ _ _ => rfl⟩

def ethernetSkb : SkBuff where
  memory := fun _ => some 0
  head := 0xc0001000
  data := 0xc0001000
  tail := 0xc0001010
  networkHeader := 0xc0001000
  macHeader := 0xc0001000
  fragments := []
  protocol := 0x0008
  pktType := 0
  dev := some 2
  head_le := by decide
  data_le := by decide
  room := by decide
  mapped := fun _ _ _ => rfl
  small := by decide

def netlinkSkb : SkBuff := { ethernetSkb with dev := none }

def ifindexFilter : List SockFilter := [⟨0x20, 0, 0, 0xfffff008⟩, ⟨0x16, 0, 0, 0⟩]

def passFilter : List SockFilter := [⟨0x06, 0, 0, 0xffff⟩]

theorem ifindexFilter_served (mem : Fin BPF_MEMWORDS → UInt32) :
    AncillaryServed plainShifter ethernetSkb ifindexFilter mem := by
  intro n s f k _ hget hk
  have hmem := List.mem_of_getElem? hget
  simp only [ifindexFilter, List.mem_cons, List.not_mem_nil, or_false] at hmem
  rcases hmem with rfl | rfl
  · obtain rfl := some.inj hk
    exact ⟨fun _ => rfl, fun h => absurd h (by decide), fun h => absurd h (by decide)⟩
  · cases hk

theorem passFilter_served (mem : Fin BPF_MEMWORDS → UInt32) :
    AncillaryServed plainShifter netlinkSkb passFilter mem := by
  intro n s f k _ hget hk
  have hmem := List.mem_of_getElem? hget
  simp only [passFilter, List.mem_singleton] at hmem
  subst hmem
  cases hk

/-- The interface of a packet with a device; and no ancillary load on a message without one. -/
theorem sk_chk_filter_sound_ifindex :
    (skChkFilter ifindexFilter = 0 ∧
      ∃ e, skRunFilter plainShifter ethernetSkb ifindexFilter (fun _ => 0) ifindexFilter.length
        = some e ∧ ((∃ v, e = .ret v) ∨ e = .refuse)) ∧
    skChkFilter passFilter = 0 ∧
      ∃ e, skRunFilter plainShifter netlinkSkb passFilter (fun _ => 0) passFilter.length
        = some e ∧ ((∃ v, e = .ret v) ∨ e = .refuse) := by
  have h : skChkFilter ifindexFilter = 0 := by decide
  have h' : skChkFilter passFilter = 0 := by decide
  have hsound := sk_chk_filter_sound plainShifter ethernetSkb ifindexFilter (fun _ => 0) h
  have hsound' := sk_chk_filter_sound plainShifter netlinkSkb passFilter (fun _ => 0) h'
  exact ⟨⟨h, hsound.2.2.mpr (ifindexFilter_served _)⟩, h', hsound'.2.2.mpr (passFilter_served _)⟩

/-- An accepted filter that asks for the index of no device ends in a null pointer dereference. -/
theorem sk_chk_filter_null_device : skChkFilter ifindexFilter = 0 ∧
    ∀ mem, skRunFilter plainShifter netlinkSkb ifindexFilter mem ifindexFilter.length
      = some (.fault .access) := by
  refine ⟨by decide, fun mem => ?_⟩
  rfl

/-- The memory as far as it belongs to the packet, `skb->data[0, skb->len)`. -/
def SkBuff.packet (skb : SkBuff) (a : UInt32) : Option UInt8 :=
  if skb.data ≤ a ∧ a < skb.tail then skb.memory a else none

theorem len_of_linear {skb : SkBuff} (hl : skb.nonlinear = false) : skb.len = skb.headlen := by
  have hnil : skb.fragments = [] := by simpa [SkBuff.nonlinear] using hl
  rw [SkBuff.len, hnil]
  rfl

theorem packet_isSome {skb : SkBuff} (hl : skb.nonlinear = false) (i : Nat) (hi : i < skb.len) :
    (skb.packet (skb.data + UInt32.ofNat i)).isSome := by
  have hroom := skb.room
  have hhead := UInt32.le_iff_toNat_le.mp skb.head_le
  rw [len_of_linear hl, SkBuff.headlen] at hi
  have ha : (skb.data + UInt32.ofNat i).toNat = skb.data.toNat + i := offset_toNat (by omega)
  rw [SkBuff.packet, if_pos ⟨UInt32.le_iff_toNat_le.mpr (by omega),
    UInt32.lt_iff_toNat_lt.mpr (by omega)⟩]
  exact skb.mapped _ (UInt32.le_iff_toNat_le.mpr (by omega)) (by omega)

section Attributes

variable {skb : SkBuff} (hl : skb.nonlinear = false) (h4 : NLA_HDRLEN ≤ skb.len)
include hl h4

theorem quiet_nlattrIn : Quiet (nlattrIn skb.packet skb s) := by
  rw [nlattrIn, if_neg (by simp [hl])]
  split
  · nofun
  next ha =>
    have hoff := offset_within h4 ha
    have hsmall : skb.len < 2 ^ 31 := skb.small
    refine quiet_attribute_iff.mpr ?_
    rw [int_len_sub (a := s.A) hsmall (by omega), ← UInt32.ofNat_toNat (x := s.A)]
    refine nlaFind_isSome_iff.mpr (mapped_within (packet_isSome hl) ?_)
    rw [UInt32.ofNat_toNat]
    omega

theorem quiet_nlattrNestIn
    (hfit : ∀ n, readField skb.packet (skb.data + s.A) = some n → s.A.toNat + 4 ≤ skb.len →
      s.A.toNat + n ≤ skb.len) :
    Quiet (nlattrNestIn skb.packet skb s) := by
  rw [nlattrNestIn, if_neg (by simp [hl])]
  split
  · nofun
  next ha =>
    have hoff := offset_within h4 ha
    have hfield := field_isSome (packet_isSome hl) (o := s.A.toNat) (by omega)
    rw [UInt32.ofNat_toNat] at hfield
    obtain ⟨n, hn⟩ := isSome_iff_exists.mp hfield
    have hn' := hfit n hn hoff
    simp only [hn]
    split
    · nofun
    · refine quiet_attribute_iff.mpr ?_
      rw [← UInt32.ofNat_toNat (x := s.A), add_ofNat]
      exact nlaFind_isSome_iff.mpr (mapped_within (packet_isSome hl) (by omega))

end Attributes

theorem bound_exact_iff {skb : SkBuff} :
    ((UInt32.ofNat skb.len - 4).toNat : Int) = (skb.len : Int) - 4 ↔ NLA_HDRLEN ≤ skb.len := by
  constructor
  · intro h
    simp only [NLA_HDRLEN]
    omega
  · intro h4
    rw [bound_exact h4]
    simp only [NLA_HDRLEN] at h4
    omega

theorem refused_of_short {skb : SkBuff} (hl : skb.nonlinear = false) (h4 : NLA_HDRLEN ≤ skb.len)
    (ha : skb.len < s.A.toNat + 4) :
    nlattr skb s = .stop .refuse ∧ nlattrNest skb s = .stop .refuse := by
  have hgt : s.A > UInt32.ofNat skb.len - 4 := by
    rw [gt_iff_lt, UInt32.lt_iff_toNat_lt, bound_exact h4]
    simp only [NLA_HDRLEN] at h4
    omega
  rw [nlattr, nlattrIn, nlattrNest, nlattrNestIn, if_neg (by simp [hl]), if_pos hgt,
    if_neg (by simp [hl]), if_pos hgt]
  exact ⟨rfl, rfl⟩

/-- The bounds of the search through all attributes are those of the integers. -/
def ExactBounds (skb : SkBuff) (s : State) : Prop :=
  ((UInt32.ofNat skb.len - 4).toNat : Int) = (skb.len : Int) - 4 ∧
    (s.A ≤ UInt32.ofNat skb.len - 4 →
      int (UInt32.ofNat skb.len - s.A) = (skb.len : Int) - s.A.toNat)

/-- And those of the search inside an attribute. -/
def ExactNestBounds (skb : SkBuff) (s : State) : Prop :=
  ((UInt32.ofNat skb.len - 4).toNat : Int) = (skb.len : Int) - 4 ∧
    (s.A ≤ UInt32.ofNat skb.len - 4 →
      ((s.A - UInt32.ofNat skb.len).toNat : Int) = (s.A.toNat : Int) - skb.len)

/-- The loads of attributes stay inside the packet and are refused exactly where no header fits, if
and only if the packet has room for a header and, for the nested one, it is refused. -/
theorem sk_run_filter_nlattr {skb : SkBuff} (hl : skb.nonlinear = false) (s : State) :
    ((ExactBounds skb s ∧ Quiet (nlattrIn skb.packet skb s) ∧
        (skb.len < s.A.toNat + 4 → nlattr skb s = .stop .refuse)) ↔ NLA_HDRLEN ≤ skb.len) ∧
    ((ExactNestBounds skb s ∧ Quiet (nlattrNestIn skb.packet skb s) ∧
        (skb.len < s.A.toNat + 4 → nlattrNest skb s = .stop .refuse)) ↔
      NLA_HDRLEN ≤ skb.len ∧ skb.len < s.A.toNat + 4) ∧
    (NLA_HDRLEN ≤ skb.len →
      (∀ n, readField skb.packet (skb.data + s.A) = some n → s.A.toNat + n ≤ skb.len) →
        Quiet (nlattrNestIn skb.packet skb s)) := by
  have hin (h4 : NLA_HDRLEN ≤ skb.len) (ha : s.A ≤ UInt32.ofNat skb.len - 4) :
      s.A.toNat + 4 ≤ skb.len := offset_within h4 (UInt32.not_lt.mpr ha)
  refine ⟨⟨fun h => bound_exact_iff.mp h.1.1, fun h4 => ⟨⟨bound_exact_iff.mpr h4, ?_⟩, ?_, ?_⟩⟩,
    ⟨fun h => ?_, ?_⟩, ?_⟩
  · intro ha
    have hoff := hin h4 ha
    exact int_len_sub skb.small (by omega)
  · exact quiet_nlattrIn hl h4
  · exact fun ha => (refused_of_short hl h4 ha).1
  · have h4 := bound_exact_iff.mp h.1.1
    refine ⟨h4, Nat.lt_of_not_le fun hle => ?_⟩
    have ha : s.A ≤ UInt32.ofNat skb.len - 4 := by
      rw [UInt32.le_iff_toNat_le, bound_exact h4]
      omega
    have hneg := h.1.2 ha
    omega
  · rintro ⟨h4, ha⟩
    refine ⟨⟨bound_exact_iff.mpr h4, fun hle => ?_⟩, ?_, fun ha => (refused_of_short hl h4 ha).2⟩
    · have hoff := hin h4 hle
      omega
    · refine quiet_nlattrNestIn hl h4 fun n _ hoff => ?_
      omega
  · intro h4 hfit
    exact quiet_nlattrNestIn hl h4 fun n hn _ => hfit n hn

theorem sk_run_filter_nlattr_zeros :
    Quiet (nlattrIn ethernetSkb.packet ethernetSkb ⟨8, 1, 0, fun _ => 0⟩) ∧
      ¬ ExactNestBounds ethernetSkb ⟨8, 1, 0, fun _ => 0⟩ := by
  obtain ⟨hattr, hnest, hquiet⟩ := @sk_run_filter_nlattr ethernetSkb rfl ⟨8, 1, 0, fun _ => 0⟩
  refine ⟨(hattr.mpr (by decide)).2.1, fun hexact => ?_⟩
  have hread : readField ethernetSkb.packet (ethernetSkb.data + 8) = some 0 := by decide
  have hin : Quiet (nlattrNestIn ethernetSkb.packet ethernetSkb ⟨8, 1, 0, fun _ => 0⟩) := by
    refine hquiet (by decide) fun n hn => ?_
    obtain rfl := some.inj (hread.symm.trans hn)
    decide
  exact absurd (hnest.mp ⟨hexact, hin, fun h => absurd h (by decide)⟩).2 (by decide)

def shortSkb : SkBuff :=
  { ethernetSkb with
    tail := 0xc0001003
    head_le := by decide
    data_le := by decide
    room := by decide
    mapped := fun _ _ _ => rfl
    small := by decide }

def shortFilter : List SockFilter :=
  [⟨0x00, 0, 0, 0xffffff00⟩, ⟨0x20, 0, 0, 0xfffff00c⟩, ⟨0x16, 0, 0, 0⟩]

/-- For a packet shorter than a header the bound wraps around, and a byte in front of it is read. -/
theorem sk_run_filter_nlattr_short : skChkFilter shortFilter = 0 ∧
    turn plainShifter shortSkb shortFilter (entry fun _ => 0) =
      .next ⟨0xffffff00, 0, 1, fun _ => 0⟩ ∧
    nlattrIn shortSkb.packet shortSkb ⟨0xffffff00, 0, 1, fun _ => 0⟩ = .stop (.fault .access) := by
  refine ⟨by decide, rfl, ?_⟩
  have hread : readField shortSkb.packet (shortSkb.data + 0xffffff00) = none := by decide
  have hfind : nlaFind shortSkb.packet (shortSkb.data + 0xffffff00) 259 0 = none := by
    rw [nlaFind, dif_pos (by decide), hread]
  exact congrArg (State.attribute _ shortSkb) hfind

/-- The pointer that `load_pointer` returns for a linear packet. -/
def loadAddress (skb : SkBuff) (k : Int) (size : Nat) : Option UInt32 :=
  if 0 ≤ k then
    if (size : Int) ≤ skb.headlen - k then some (ptrAdd skb.data k) else none
  else if SKF_AD_OFF ≤ k then none
  else if skb.head ≤ headerPointer skb k ∧ headerPointer skb k < skb.tail then
    some (headerPointer skb k)
  else none

theorem ptrAdd_emod (p : UInt32) (i : Int) :
    ((ptrAdd p i).toNat : Int) = (p.toNat + i) % 2 ^ 32 := by
  have hbv : (ptrAdd p i).toNat = (BitVec.ofInt 32 (p.toNat + i)).toNat := rfl
  rw [hbv, BitVec.toNat_ofInt]
  omega

theorem ptrAdd_toNat {i : Int} (h : 0 ≤ p.toNat + i) (h' : p.toNat + i < 2 ^ 32) :
    (ptrAdd p i).toNat = (p.toNat + i).toNat := by
  have hemod := ptrAdd_emod p i
  rw [Int.emod_eq_of_lt h h'] at hemod
  omega

theorem ptrAdd_natCast (p : UInt32) (n : Nat) (h : p.toNat + n < 2 ^ 32) :
    ptrAdd p n = p + UInt32.ofNat n := by
  apply UInt32.toNat_inj.mp
  rw [ptrAdd_toNat (by omega) (by omega), offset_toNat h]
  omega

theorem loadPointer_address (hl : skb.nonlinear = false) (k : Int) (size : Nat) :
    (loadAddress skb k size = none ∧ loadPointer skb k size = none) ∨
      ∃ p ptr, loadAddress skb k size = some p ∧ loadPointer skb k size = some ptr ∧
        ∀ i < size, ptr i = skb.memory (p + UInt32.ofNat i) := by
  rw [loadAddress, loadPointer]
  split
  next hk =>
    rw [skbHeaderPointer]
    split
    next hsize =>
      have hroom := skb.room
      rw [SkBuff.headlen] at hsize
      refine .inr ⟨_, _, rfl, rfl, fun i hi => ?_⟩
      obtain ⟨n, rfl⟩ := Int.eq_ofNat_of_zero_le hk
      rw [SkBuff.byte, if_pos (by rw [SkBuff.headlen]; omega), ptrAdd_natCast _ _ (by omega),
        add_ofNat]
      rfl
    next hsize =>
      rw [if_pos (by rw [len_of_linear hl]; omega)]
      exact .inl ⟨rfl, rfl⟩
  next =>
    split
    · exact .inl ⟨rfl, rfl⟩
    · simp only [loadHeaderPointer]
      split
      · exact .inr ⟨_, _, rfl, rfl, fun _ _ => rfl⟩
      · exact .inl ⟨rfl, rfl⟩

/-- Where a load with a negative offset begins. -/
def headerStart (skb : SkBuff) (k : Int) : Int :=
  if SKF_NET_OFF ≤ k then (skb.networkHeader.toNat + (k - SKF_NET_OFF)) % 2 ^ 32
  else if SKF_LL_OFF ≤ k then (skb.macHeader.toNat + (k - SKF_LL_OFF)) % 2 ^ 32
  else 0

/-- A load below the ancillary offsets that begins inside the buffer ends before the tail. -/
def EndsInside (skb : SkBuff) (k : Int) (size : Nat) : Prop :=
  k < SKF_AD_OFF → skb.head.toNat ≤ headerStart skb k → headerStart skb k < skb.tail.toNat →
    headerStart skb k + size ≤ skb.tail.toNat

theorem loadAddress_header (h : k < SKF_AD_OFF) : loadAddress skb k size = some p ↔
    (p.toNat : Int) = headerStart skb k ∧ skb.head.toNat ≤ p.toNat ∧
      p.toNat < skb.tail.toNat := by
  have hneg : ¬ 0 ≤ k := by
    unfold SKF_AD_OFF at h
    omega
  have hstart : ((headerPointer skb k).toNat : Int) = headerStart skb k := by
    rw [headerPointer, headerStart]
    split
    · exact ptrAdd_emod ..
    · split
      · exact ptrAdd_emod ..
      · rfl
  rw [loadAddress, if_neg hneg, if_neg (Int.not_le.mpr h), ← hstart]
  rw [← UInt32.le_iff_toNat_le, ← UInt32.lt_iff_toNat_lt, Int.natCast_inj, UInt32.toNat_inj]
  split
  next hin => exact ⟨fun h => some.inj h ▸ ⟨rfl, hin⟩, fun h => h.1 ▸ rfl⟩
  next hout => exact iff_of_false nofun fun h => hout (h.1 ▸ h.2)

theorem loadAddress_packet (h : loadAddress skb k size = some p) (hk : ¬ k < SKF_AD_OFF) :
    skb.head.toNat ≤ p.toNat ∧ p.toNat + size ≤ skb.tail.toNat := by
  have hroom := skb.room
  have hhead := UInt32.le_iff_toNat_le.mp skb.head_le
  have hdata := UInt32.le_iff_toNat_le.mp skb.data_le
  rw [loadAddress] at h
  split at h
  next hk =>
    split at h
    next hsize =>
      cases h
      rw [SkBuff.headlen] at hsize
      rw [ptrAdd_toNat (by omega) (by omega)]
      omega
    next => cases h
  next =>
    rw [if_pos (Int.not_lt.mp hk)] at h
    cases h

theorem bytes_inside {skb : SkBuff} (hsize : 0 < size) (hp : p.toNat < skb.tail.toNat)
    (hle : size ≤ 4) :
    (∀ i < size, skb.head ≤ p + UInt32.ofNat i ∧ p + UInt32.ofNat i < skb.tail) ↔
      skb.head.toNat ≤ p.toNat ∧ p.toNat + size ≤ skb.tail.toNat := by
  have hroom := skb.room
  have hat (i : Nat) (hi : i < size) : (p + UInt32.ofNat i).toNat = p.toNat + i :=
    offset_toNat (by omega)
  constructor
  · intro h
    have hfirst := UInt32.le_iff_toNat_le.mp (h 0 hsize).1
    have hlast := UInt32.lt_iff_toNat_lt.mp (h (size - 1) (by omega)).2
    rw [hat 0 hsize] at hfirst
    rw [hat (size - 1) (by omega)] at hlast
    omega
  · intro h i hi
    rw [UInt32.le_iff_toNat_le, UInt32.lt_iff_toNat_lt, hat i hi]
    omega

/-- The loads read through `load_pointer`, and all their bytes are in the buffer exactly if those
below the ancillary offsets do not run over the tail. -/
theorem sk_run_filter_loads {skb : SkBuff} (hl : skb.nonlinear = false) (k : Int) (size : Size) :
    ((loadAddress skb k size.bytes = none ∧ loadPointer skb k size.bytes = none) ∨
      ∃ p ptr, loadAddress skb k size.bytes = some p ∧ loadPointer skb k size.bytes = some ptr ∧
        ∀ i < size.bytes, ptr i = skb.memory (p + UInt32.ofNat i)) ∧
    ((∀ p, loadAddress skb k size.bytes = some p → ∀ i < size.bytes,
        skb.head ≤ p + UInt32.ofNat i ∧ p + UInt32.ofNat i < skb.tail) ↔
      EndsInside skb k size.bytes) := by
  have hpos : 0 < size.bytes := by cases size <;> decide
  refine ⟨loadPointer_address hl k size.bytes, fun h hk hhead htail => ?_, fun h p hp => ?_⟩
  · have hroom := skb.room
    obtain ⟨n, hn⟩ := Int.eq_ofNat_of_zero_le (Int.le_trans (Int.natCast_nonneg _) hhead)
    have hat : (UInt32.ofNat n).toNat = n := by
      rw [UInt32.toNat_ofNat', Nat.mod_eq_of_lt (by omega)]
    have hp : loadAddress skb k size.bytes = some (UInt32.ofNat n) := by
      rw [loadAddress_header hk, hat]
      omega
    have hin := (bytes_inside hpos (by omega) size.bytes_le).mp (h _ hp)
    omega
  · by_cases hk : k < SKF_AD_OFF
    · obtain ⟨hstart, hhead, htail⟩ := (loadAddress_header hk).mp hp
      have hend := h hk (by omega) (by omega)
      exact (bytes_inside hpos htail size.bytes_le).mpr (by omega)
    · have hin := loadAddress_packet hp hk
      exact (bytes_inside hpos (by omega) size.bytes_le).mpr hin

theorem sk_run_filter_loads_last : ∃ p ptr, loadAddress ethernetSkb (SKF_NET_OFF + 12) 4 = some p ∧
      loadPointer ethernetSkb (SKF_NET_OFF + 12) 4 = some ptr ∧ p + 3 < ethernetSkb.tail := by
  obtain ⟨hread, hiff⟩ := @sk_run_filter_loads ethernetSkb rfl (SKF_NET_OFF + 12) .w
  obtain ⟨hnone, -⟩ | ⟨p, ptr, hp, hptr, -⟩ := hread
  · cases hnone
  · have hin := hiff.mpr (fun _ _ _ => by decide) p hp 3 (by decide)
    exact ⟨p, ptr, hp, hptr, hin.2⟩

/-- A load of four bytes from the last one of the packet. -/
theorem sk_run_filter_load_outside : skChkFilter [⟨0x20, 0, 0, 0xfff0000f⟩, ⟨0x16, 0, 0, 0⟩] = 0 ∧
      int 0xfff0000f = SKF_NET_OFF + 15 ∧
      loadAddress ethernetSkb (SKF_NET_OFF + 15) 4 = some 0xc000100f ∧
      ¬ (0xc000100f : UInt32) + 1 < ethernetSkb.tail := by
  decide

def stored (f : SockFilter) : List Nat :=
  match decode f.code with
  | some .st => [f.k.toNat]
  | some .stx => [f.k.toNat]
  | _ => []

def loaded (f : SockFilter) : List Nat :=
  match decode f.code with
  | some .ldMem => [f.k.toNat]
  | some .ldxMem => [f.k.toNat]
  | _ => []

section Scratch
variable (cpu : Shifter) (skb : SkBuff) (filter : List SockFilter)
  (mem : Fin BPF_MEMWORDS → UInt32)

/-- The cells that the first `n` instructions of the run store to. -/
def StoredBy (n i : Nat) : Prop :=
  ∃ m s f, m < n ∧ Reached (turn cpu skb filter) (entry mem) m s ∧
    filter[s.pc.toNat]? = some f ∧ i ∈ stored f

/-- Each load from a cell that is executed comes behind a store to it. -/
def StoredFirst : Prop :=
  ∀ n s f, Reached (turn cpu skb filter) (entry mem) n s → filter[s.pc.toNat]? = some f →
    ∀ i ∈ loaded f, StoredBy cpu skb filter mem n i

/-- The registers go through the same values from another content of the scratch memory. -/
def SameRegisters (mem' : Fin BPF_MEMWORDS → UInt32) : Prop :=
  ∀ n s, Reached (turn cpu skb filter) (entry mem) n s →
    ∃ t, Reached (turn cpu skb filter) (entry mem') n t ∧ t.A = s.A ∧ t.X = s.X ∧ t.pc = s.pc

end Scratch

/-- The two states differ in cells only that do not meet the condition. -/
def Alike (Cell : Nat → Prop) (s t : State) : Prop :=
  ∃ mem, t = { s with mem := mem } ∧ ∀ i : Fin BPF_MEMWORDS, Cell i → mem i = s.mem i

/-- An instruction does the same in both states if they have the cell that it loads in common, and
afterwards the cell that it stores to. -/
def Parallel (f : SockFilter) (Cell : Nat → Prop) (m m' : Turn State Exit) : Prop :=
  (∃ e, m = .stop e ∧ m' = .stop e) ∨
    ∃ s' t', m = .next s' ∧ m' = .next t' ∧ Alike (fun i => Cell i ∨ i ∈ stored f) s' t'

theorem parallel_jump {s : State} {mem : Fin BPF_MEMWORDS → UInt32} (hst : stored f = [])
    (h : ∀ i : Fin BPF_MEMWORDS, Cell i → mem i = s.mem i) :
    Parallel f Cell (s.jump o) ({ s with mem := mem }.jump o) :=
  .inr ⟨_, _, rfl, rfl, mem, rfl, fun i hi => h i (hi.resolve_right (by simp [hst]))⟩

theorem parallel_writeMem {s : State} (hst : stored f = [f.k.toNat])
    (h : ∀ i : Fin BPF_MEMWORDS, Cell i → mem i = s.mem i) :
    Parallel f Cell (s.writeMem f.k v) ({ s with mem := mem }.writeMem f.k v) := by
  rw [State.writeMem, State.writeMem]
  split
  next hk =>
    refine .inr ⟨_, _, rfl, rfl, _, rfl, fun i hi => ?_⟩
    by_cases he : i = ⟨f.k.toNat, hk⟩
    · subst he
      simp only [Function.update_self]
    · have hne : i.val ≠ f.k.toNat := fun hv => he (Fin.ext hv)
      simp only [Function.update_of_ne he]
      exact h i (hi.resolve_right (by simpa [hst] using hne))
  next => exact .inl ⟨_, rfl, rfl⟩

theorem parallel_readMem {s : State} (hl : f.k.toNat ∈ loaded f) (hload : ∀ i ∈ loaded f, Cell i)
    (h : ∀ i : Fin BPF_MEMWORDS, Cell i → mem i = s.mem i)
    (huse : ∀ v, Parallel f Cell (use v) (use' v)) :
    Parallel f Cell (s.readMem f.k use) ({ s with mem := mem }.readMem f.k use') := by
  rw [State.readMem, State.readMem]
  split
  next hk =>
    have hsame : mem ⟨f.k.toNat, hk⟩ = s.mem ⟨f.k.toNat, hk⟩ := h _ (hload _ hl)
    simp only [hsame]
    exact huse _
  next => exact .inl ⟨_, rfl, rfl⟩

theorem parallel_plain (cpu : Shifter) (skb : SkBuff) (hop : op.Plain)
    (hk : allows flen pc f op = true) (hst : stored f = [])
    (h : ∀ i : Fin BPF_MEMWORDS, Cell i → mem i = s.mem i) :
    Parallel f Cell (perform cpu skb s f op) (perform cpu skb { s with mem := mem } f op) := by
  obtain ⟨E, -, heq⟩ := local_perform cpu skb s hop hk
  have hs : perform cpu skb s f op = E.apply s := heq s.mem
  have hs' : perform cpu skb { s with mem := mem } f op = E.apply _ := heq mem
  rw [hs, hs']
  cases E with
  | stop e => exact .inl ⟨e, rfl, rfl⟩
  | go a x o => exact parallel_jump (s := { s with A := a, X := x }) hst h

theorem parallel_execute (cpu : Shifter) (skb : SkBuff) (hk : checkInsn flen pc f = true)
    (hload : ∀ i ∈ loaded f, Cell i) (hs : Alike Cell s t) :
    Parallel f Cell (execute cpu skb s f) (execute cpu skb t f) := by
  obtain ⟨mem, rfl, hmem⟩ := hs
  rw [checkInsn] at hk
  rw [execute, execute]
  cases hd : decode f.code with
  | none => exact .inl ⟨_, rfl, rfl⟩
  | some op =>
    rw [hd] at hk
    cases op with
    | ldMem | ldxMem =>
      have hst : stored f = [] := by simp [stored, hd]
      refine parallel_readMem (by simp [loaded, hd]) hload hmem fun v => ?_
      first
      | exact parallel_jump (s := { s with A := v }) hst hmem
      | exact parallel_jump (s := { s with X := v }) hst hmem
    | st | stx => exact parallel_writeMem (by simp [stored, hd]) hmem
    | _ => exact parallel_plain cpu skb (by simp [Opcode.Plain]) hk (by simp [stored, hd]) hmem

theorem StoredFirst.parallel (h : StoredFirst cpu skb filter mem) (hf : Accepted filter)
    (hr : Reached (turn cpu skb filter) (entry mem) n s)
    (ht : Reached (turn cpu skb filter) (entry mem') n t)
    (hlike : Alike (StoredBy cpu skb filter mem n) s t) :
    ∃ f, filter[s.pc.toNat]? = some f ∧ Parallel f (StoredBy cpu skb filter mem n)
      (turn cpu skb filter s) (turn cpu skb filter t) := by
  obtain ⟨f, hget, hturn⟩ := hf.turn_eq hr
  obtain ⟨g, hget', hturn'⟩ := hf.turn_eq ht
  have hpc : t.pc = s.pc := by
    obtain ⟨_, rfl, -⟩ := hlike
    rfl
  rw [hpc, hget] at hget'
  obtain rfl := some.inj hget'
  rw [hturn, hturn']
  exact ⟨f, hget, parallel_execute cpu skb (hf.checked hget) (h n s f hr hget) hlike⟩

/-- With each load behind a store two runs have the registers and the cells stored to in common. -/
theorem StoredFirst.alike (h : StoredFirst cpu skb filter mem) (hf : Accepted filter)
    (mem' : Fin BPF_MEMWORDS → UInt32) (hr : Reached (turn cpu skb filter) (entry mem) n s) :
    ∃ t, Reached (turn cpu skb filter) (entry mem') n t ∧
      Alike (StoredBy cpu skb filter mem n) s t := by
  induction hr with
  | start =>
    refine ⟨entry mem', .start, mem', rfl, ?_⟩
    rintro i ⟨m, _, _, hm, -⟩
    cases hm
  | @next n s s' hr he ih =>
    obtain ⟨t, ht, hlike⟩ := ih
    obtain ⟨f, hget, ⟨e, hstop, -⟩ | ⟨s₁, t₁, hs₁, ht₁, hl⟩⟩ := h.parallel hf hr ht hlike
    · cases hstop.symm.trans he
    · obtain rfl := Turn.next.inj (hs₁.symm.trans he)
      obtain ⟨mem₁, rfl, hmem⟩ := hl
      refine ⟨_, ht.next ht₁, mem₁, rfl, fun i hi => hmem i ?_⟩
      obtain ⟨m, u, g, hm, hu, hg, hin⟩ := hi
      rcases Nat.lt_succ_iff_lt_or_eq.mp hm with hlt | rfl
      · exact .inl ⟨m, u, g, hlt, hu, hg, hin⟩
      · obtain rfl := hu.unique hr
        obtain rfl := some.inj (hg.symm.trans hget)
        exact .inr hin

theorem perform_mem (hop : op.Plain) (hk : allows flen pc f op = true)
    (h : perform cpu skb s f op = .next s') : s'.mem = s.mem := by
  obtain ⟨E, -, heq⟩ := local_perform cpu skb s hop hk
  have hs : E.apply s = .next s' := (heq s.mem).symm.trans h
  cases E with
  | stop e => cases hs
  | go a x o =>
    obtain rfl := Turn.next.inj hs
    rfl

theorem execute_mem (hk : checkInsn flen pc f = true) (i : Fin BPF_MEMWORDS)
    (hi : i.val ∉ stored f) (h : execute cpu skb s f = .next s') : s'.mem i = s.mem i := by
  rw [execute] at h
  rw [checkInsn] at hk
  cases hd : decode f.code with
  | none =>
    rw [hd] at h
    cases h
  | some op =>
    rw [hd] at h hk
    cases op with
    | ldMem | ldxMem =>
      simp only [perform, State.readMem] at h
      split at h
      · obtain rfl := Turn.next.inj h
        rfl
      · cases h
    | st | stx =>
      simp only [perform, State.writeMem] at h
      split at h
      next hk =>
        obtain rfl := Turn.next.inj h
        refine Function.update_of_ne (fun he => hi ?_) _ _
        rw [he]
        simp [stored, hd]
      next => cases h
    | _ => rw [perform_mem (by simp [Opcode.Plain]) hk h]

/-- A cell that is not stored to keeps what it held at the start. -/
theorem mem_of_not_stored (hf : Accepted filter) (i : Fin BPF_MEMWORDS)
    (hr : Reached (turn cpu skb filter) (entry mem) n s)
    (h : ¬ StoredBy cpu skb filter mem n i) : s.mem i = mem i := by
  induction hr with
  | start => rfl
  | @next n s s' hr he ih =>
    have hbefore : ¬ StoredBy cpu skb filter mem n i := fun ⟨m, t, g, hm, hrest⟩ =>
      h ⟨m, t, g, Nat.lt_succ_of_lt hm, hrest⟩
    obtain ⟨f, hget, hturn⟩ := hf.turn_eq hr
    have hnot : i.val ∉ stored f := fun hin => h ⟨n, s, f, Nat.lt_succ_self n, hr, hget, hin⟩
    rw [← ih hbefore]
    exact execute_mem (hf.checked hget) i hnot (hturn.symm.trans he)

/-- A load from a cell brings what it holds into one of the registers. -/
theorem execute_loaded (cpu : Shifter) (skb : SkBuff) (hk : f.k.toNat < BPF_MEMWORDS)
    (hi : i ∈ loaded f) :
    i = f.k.toNat ∧ ((∀ s, execute cpu skb s f = s.setA (s.mem ⟨f.k.toNat, hk⟩)) ∨
      ∀ s, execute cpu skb s f = s.setX (s.mem ⟨f.k.toNat, hk⟩)) := by
  rw [loaded] at hi
  split at hi
  next hd =>
    refine ⟨List.mem_singleton.mp hi, .inl fun s => ?_⟩
    simp only [execute, hd, perform, State.readMem, dif_pos hk]
  next hd =>
    refine ⟨List.mem_singleton.mp hi, .inr fun s => ?_⟩
    simp only [execute, hd, perform, State.readMem, dif_pos hk]
  next => cases hi

theorem Accepted.loaded_lt {pc : Nat} (hf : Accepted filter) (hget : filter[pc]? = some f)
    (hi : i ∈ loaded f) : f.k.toNat < BPF_MEMWORDS := by
  have hcheck := hf.checked hget
  rw [loaded] at hi
  split at hi
  next hd => simpa [checkInsn, hd, allows] using hcheck
  next hd => simpa [checkInsn, hd, allows] using hcheck
  next => cases hi

/-- The registers show a cell that is loaded and was not stored to. -/
theorem storedFirst_of_same (hf : Accepted filter)
    (h : ∀ mem', SameRegisters cpu skb filter mem mem') : StoredFirst cpu skb filter mem := by
  intro n s f hr hget i hi
  by_contra hnot
  have hk := hf.loaded_lt hget hi
  obtain ⟨rfl, hload⟩ := execute_loaded cpu skb hk hi
  let cell : Fin BPF_MEMWORDS := ⟨f.k.toNat, hk⟩
  let mem' := Function.update mem cell (mem cell + 1)
  obtain ⟨t, ht, -, -, hpc⟩ := h mem' n s hr
  have hnot' : ¬ StoredBy cpu skb filter mem' n cell := by
    rintro ⟨m, u, g, hm, hu, hg, hin⟩
    obtain ⟨v, hv⟩ := hr.before (Nat.le_of_lt hm)
    obtain ⟨u', hu', -, -, hpc⟩ := h mem' m v hv
    obtain rfl := hu.unique hu'
    exact hnot ⟨m, v, g, hm, hv, hpc ▸ hg, hin⟩
  have hs : s.mem cell = mem cell := mem_of_not_stored hf cell hr hnot
  have ht' : t.mem cell = mem cell + 1 :=
    (mem_of_not_stored hf cell ht hnot').trans (Function.update_self ..)
  obtain ⟨g, hget₁, hturn⟩ := hf.turn_eq hr
  obtain ⟨g', hget₂, hturn'⟩ := hf.turn_eq ht
  obtain rfl := some.inj (hget.symm.trans hget₁)
  rw [hpc, hget] at hget₂
  obtain rfl := some.inj hget₂
  have hsame : t.mem cell = s.mem cell := by
    rcases hload with hA | hX
    · obtain ⟨u, hu, hval, -, -⟩ := h mem' (n + 1) _ (hr.next (hturn.trans (hA s)))
      obtain rfl := hu.unique (ht.next (hturn'.trans (hA t)))
      exact hval
    · obtain ⟨u, hu, -, hval, -⟩ := h mem' (n + 1) _ (hr.next (hturn.trans (hX s)))
      obtain rfl := hu.unique (ht.next (hturn'.trans (hX t)))
      exact hval
  rw [hs, ht'] at hsame
  have hnat := congrArg UInt32.toNat hsame
  rw [UInt32.toNat_add] at hnat
  have hlt := (mem cell).toNat_lt
  have hone : (1 : UInt32).toNat = 1 := rfl
  omega

/-- The registers do not depend on the scratch memory at the start exactly if each load executed
comes behind a store to its cell; then the way out does not either. -/
theorem sk_run_filter_scratch (cpu : Shifter) (skb : SkBuff) (filter : List SockFilter)
    (mem : Fin BPF_MEMWORDS → UInt32) (h : skChkFilter filter = 0) :
    ((∀ mem', SameRegisters cpu skb filter mem mem') ↔ StoredFirst cpu skb filter mem) ∧
    (StoredFirst cpu skb filter mem → ∀ mem',
      ∃ e, skRunFilter cpu skb filter mem filter.length = some e ∧
        skRunFilter cpu skb filter mem' filter.length = some e) := by
  have hf := accepted_of_check h
  refine ⟨⟨storedFirst_of_same hf, fun hfirst mem' n s hr => ?_⟩, fun hfirst mem' => ?_⟩
  · obtain ⟨t, ht, _, rfl, -⟩ := hfirst.alike hf mem' hr
    exact ⟨_, ht, rfl, rfl, rfl⟩
  · obtain ⟨e, hrun, -⟩ := hf.returns cpu skb mem
    obtain ⟨n, s, -, hr, hstop⟩ := runFor_reached hrun
    obtain ⟨t, ht, hlike⟩ := hfirst.alike hf mem' hr
    obtain ⟨-, -, ⟨e', hs, ht'⟩ | ⟨s', t', hs, -, -⟩⟩ := hfirst.parallel hf hr ht hlike
    · obtain rfl := Turn.stop.inj (hs.symm.trans hstop)
      exact ⟨e', hrun, hf.stops ht ht'⟩
    · cases hs.symm.trans hstop

/-- Seven goes through cell 3, and a load from cell 0 is jumped over. -/
def stashFilter : List SockFilter :=
  [⟨0x00, 0, 0, 7⟩, ⟨0x02, 0, 0, 3⟩, ⟨0x15, 0, 1, 1⟩, ⟨0x60, 0, 0, 0⟩, ⟨0x60, 0, 0, 3⟩,
    ⟨0x16, 0, 0, 0⟩]

theorem stashFilter_storedFirst :
    StoredFirst plainShifter ethernetSkb stashFilter (fun _ => 0) := by
  let step := turn plainShifter ethernetSkb stashFilter
  have h₀ : Reached step (entry fun _ => 0) 0 (entry fun _ => 0) := .start
  have h₁ : Reached step (entry fun _ => 0) 1 ⟨7, 0, 1, fun _ => 0⟩ := h₀.next rfl
  have h₂ := h₁.next rfl
  have h₃ := h₂.next rfl
  intro n s f hr hget
  match n with
  | 0 =>
    obtain rfl := hr.unique h₀
    obtain rfl := some.inj hget
    exact nofun
  | 1 =>
    obtain rfl := hr.unique h₁
    obtain rfl := some.inj hget
    exact nofun
  | 2 =>
    obtain rfl := hr.unique h₂
    obtain rfl := some.inj hget
    exact nofun
  | 3 =>
    obtain rfl := hr.unique h₃
    obtain rfl := some.inj hget
    intro i hi
    obtain rfl : i = 3 := List.mem_singleton.mp hi
    exact ⟨1, _, ⟨0x02, 0, 0, 3⟩, by decide, h₁, rfl, by decide⟩
  | n + 4 =>
    obtain ⟨hge, hlt⟩ := (accepted_of_check (by decide)).reached hr
    have hlen : stashFilter.length = 6 := rfl
    obtain hpc | hpc : s.pc.toNat = 4 ∨ s.pc.toNat = 5 := by omega
    · rw [hpc] at hget
      obtain rfl := some.inj hget
      intro i hi
      obtain rfl : i = 3 := List.mem_singleton.mp hi
      exact ⟨1, _, ⟨0x02, 0, 0, 3⟩, by omega, h₁, rfl, by decide⟩
    · rw [hpc] at hget
      obtain rfl := some.inj hget
      exact nofun

theorem sk_run_filter_scratch_stash : skChkFilter stashFilter = 0 ∧
    ∃ e, skRunFilter plainShifter ethernetSkb stashFilter (fun _ => 0) stashFilter.length = some e ∧
      skRunFilter plainShifter ethernetSkb stashFilter (fun _ => 1) stashFilter.length =
        some e := by
  have h : skChkFilter stashFilter = 0 := by decide
  exact ⟨h, (sk_run_filter_scratch plainShifter ethernetSkb stashFilter (fun _ => 0) h).2
    stashFilter_storedFirst fun _ => 1⟩

def peekFilter : List SockFilter := [⟨0x60, 0, 0, 0⟩, ⟨0x16, 0, 0, 0⟩]

theorem sk_run_filter_reads_stack : skChkFilter peekFilter = 0 ∧
    skRunFilter plainShifter ethernetSkb peekFilter (fun _ => 0) peekFilter.length = some (.ret 0) ∧
    skRunFilter plainShifter ethernetSkb peekFilter (fun _ => 1) peekFilter.length
      = some (.ret 1) := by
  refine ⟨by decide, ?_, ?_⟩
  · rfl
  · rfl

end SpicaKernel.SocketFilter

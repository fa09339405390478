import SpicaKernel.Memory
import SpicaKernel.Runs

namespace SpicaKernel.Netlink
open Function List Option
set_option autoImplicit true

abbrev Byte := BitVec 8

def ERANGE : Int := 34

def EINVAL : Int := 22

/-- The types of a policy entry, up to `NLA_TYPE_MAX`. -/
inductive PolicyType where
  | unspec
  | u8
  | u16
  | u32
  | u64
  | string
  | flag
  | msecs
  | nested
  | nestedCompat
  | nulString
  | binary
  deriving DecidableEq

structure Policy where
  type : PolicyType
  len : BitVec 16

def NLA_HDRLEN : Int := 4

def NLA_ALIGN (n : Nat) : Nat := (n + 3) / 4 * 4

def nlaAttrMinlen : PolicyType → Nat
  | .u8 => 1
  | .u16 => 2
  | .u32 => 4
  | .u64 => 8
  | .nested => 4
  | _ => 0

/-- A 16-bit field of the stream; `none` is a read outside the buffer. -/
def read16 (buf : List Byte) (off : Nat) : Option Nat := do
  let lo ← buf[off]?
  let hi ← buf[off + 1]?
  return lo.toNat + 256 * hi.toNat

def nlaLen (buf : List Byte) (nla : Nat) : Option Int :=
  (read16 buf nla).map fun n : Nat => (n : Int) - NLA_HDRLEN

def nlaType (buf : List Byte) (nla : Nat) : Option Nat :=
  (read16 buf (nla + 2)).map fun n => n &&& 0x3fff

def nlaOk (buf : List Byte) (nla : Nat) (remaining : Int) : Option Bool :=
  if 4 ≤ remaining then
    (read16 buf nla).map fun n : Nat => decide (4 ≤ n) && decide ((n : Int) ≤ remaining)
  else some false

/-- Whether `memchr` finds a zero. -/
def memchr (buf : List Byte) : Nat → Nat → Option Bool
  | _, 0 => some false
  | off, n + 1 => do
    if (← buf[off]?) = 0#8 then return true
    else memchr buf (off + 1) n

/-- `validate_nla` from `NLA_STRING` on. -/
def checkString (buf : List Byte) (nla : Nat) (attrlen : Int) (pt : Policy) : Option Int :=
  if attrlen < 1 then some (-ERANGE)
  else if pt.len ≠ 0#16 then do
    let last ← Buffer.get buf (nla + NLA_HDRLEN + attrlen - 1)
    let attrlen := if last = 0#8 then attrlen - 1 else attrlen
    return if (pt.len.toNat : Int) < attrlen then -ERANGE else 0
  else some 0

/-- `validate_nla` for `NLA_NUL_STRING`. -/
def checkNulString (buf : List Byte) (nla : Nat) (attrlen : Int) (pt : Policy) : Option Int :=
  let minlen := if pt.len ≠ 0#16 then min attrlen (pt.len.toNat + 1) else attrlen
  if minlen = 0 then some (-EINVAL)
  else do
    if ← memchr buf (nla + 4) minlen.toNat then checkString buf nla attrlen pt
    else return -EINVAL

/-- `validate_nla` for `NLA_NESTED_COMPAT`, which has a second header behind the structure. -/
def checkNestedCompat (buf : List Byte) (nla : Nat) (attrlen : Int) (pt : Policy) : Option Int :=
  let aligned := NLA_ALIGN pt.len.toNat
  if attrlen < pt.len.toNat then some (-ERANGE)
  else if attrlen < aligned then some 0
  else if attrlen < aligned + NLA_HDRLEN then some (-ERANGE)
  else do
    let inner ← nlaLen buf (nla + 4 + aligned)
    return if attrlen < aligned + NLA_HDRLEN + inner then -ERANGE else 0

/-- `validate_nla` for the types that have a least length. -/
def checkMinlen (attrlen : Int) (pt : Policy) : Int :=
  let minlen := if pt.len ≠ 0#16 then pt.len.toNat
    else if pt.type ≠ .unspec then nlaAttrMinlen pt.type else 0
  if attrlen < minlen then -ERANGE else 0

/-- `validate_nla`; `none` is a read outside the buffer. -/
def validateNla (buf : List Byte) (nla : Nat) (maxtype : Nat) (policy : Nat → Policy) :
    Option Int := do
  let attrlen ← nlaLen buf nla
  let type ← nlaType buf nla
  if type = 0 ∨ maxtype < type then return 0
  else
    let pt := policy type
    match pt.type with
    | .flag => return if 0 < attrlen then -ERANGE else 0
    | .nulString => checkNulString buf nla attrlen pt
    | .string => checkString buf nla attrlen pt
    | .binary => return if pt.len ≠ 0#16 ∧ (pt.len.toNat : Int) < attrlen then -ERANGE else 0
    | .nestedCompat => checkNestedCompat buf nla attrlen pt
    | .nested => return if attrlen = 0 then 0 else checkMinlen attrlen pt
    | _ => return checkMinlen attrlen pt

/-- The array `tb`, of places in the buffer. -/
abbrev Table := Nat → Option Nat

/-- The loop of `nla_parse`. -/
structure Cursor where
  nla : Nat
  rem : Int
  tb : Table

/-- What `nla_parse` does with an attribute of a type. -/
def judge (buf : List Byte) (maxtype : Nat) (policy : Option (Nat → Policy)) (nla type : Nat) :
    Option Int :=
  if 0 < type ∧ type ≤ maxtype then
    match policy with
    | some policy => validateNla buf nla maxtype policy
    | none => some 0
  else some 0

def parseBody (buf : List Byte) (maxtype : Nat) (policy : Option (Nat → Policy)) (c : Cursor) :
    Option (Turn Cursor (Option (Int × Table))) := do
  if ← nlaOk buf c.nla c.rem then
    let type ← nlaType buf c.nla
    let err ← judge buf maxtype policy c.nla type
    if err < 0 then return .stop (some (err, c.tb))
    else
      let tb := if 0 < type ∧ type ≤ maxtype then update c.tb type (some c.nla) else c.tb
      let totlen ← (read16 buf c.nla).map NLA_ALIGN
      return .next ⟨c.nla + totlen, c.rem - totlen, tb⟩
  else return .stop (some (0, c.tb))

def parseTurn (buf : List Byte) (maxtype : Nat) (policy : Option (Nat → Policy)) (c : Cursor) :
    Turn Cursor (Option (Int × Table)) :=
  (parseBody buf maxtype policy c).getD (.stop none)

/-- `nla_parse`. Returns the error code and the table. -/
def nlaParse (buf : List Byte) (maxtype : Nat) (policy : Option (Nat → Policy)) :
    Option (Int × Table) :=
  (runFor (parseTurn buf maxtype policy) (buf.length + 1) ⟨0, buf.length, fun _ => none⟩).join

/-- An attribute of a stream: where it is, and what its header says. -/
structure Attr where
  off : Nat
  len : Nat
  type : Nat

structure Attr.Fits (buf : List Byte) (a : Attr) : Prop where
  len : read16 buf a.off = some a.len
  type : nlaType buf a.off = some a.type
  header : 4 ≤ a.len
  inside : a.off + a.len ≤ buf.length

def Attr.payload (buf : List Byte) (a : Attr) : List Byte := (buf.drop (a.off + 4)).take (a.len - 4)

/-- The attributes of a stream from a place on, each at the aligned end of the one before it. -/
inductive Walk (buf : List Byte) : Nat → List Attr → Prop where
  | done (h : ∀ a : Attr, a.off = off → ¬ a.Fits buf) : Walk buf off []
  | attr {a : Attr} (ha : a.Fits buf) (hoff : a.off = off)
      (rest : Walk buf (off + NLA_ALIGN a.len) as) : Walk buf off (a :: as)

def lastOf (t : Nat) (as : List Attr) : Option Attr := as.reverse.find? fun a => a.type == t

/-- A string is not empty and not longer than allowed; a zero at its end does not count. -/
def StringFits (pt : Policy) (payload : List Byte) : Prop :=
  payload ≠ [] ∧ (pt.len ≠ 0#16 →
    (if payload.getLast? = some 0#8 then payload.dropLast else payload).length ≤ pt.len.toNat)

/-- The least length of an attribute: that of the policy or that of the type. -/
def leastLength (pt : Policy) : Nat :=
  if pt.len ≠ 0#16 then pt.len.toNat else nlaAttrMinlen pt.type

def Policy.Admits (pt : Policy) (payload : List Byte) : Prop :=
  match pt.type with
  | .flag => payload = []
  | .string => StringFits pt payload
  | .nulString => StringFits pt payload ∧
      0#8 ∈ if pt.len ≠ 0#16 then payload.take (pt.len.toNat + 1) else payload
  | .binary => pt.len ≠ 0#16 → payload.length ≤ pt.len.toNat
  | .nestedCompat => pt.len.toNat ≤ payload.length ∧
      (NLA_ALIGN pt.len.toNat ≤ payload.length → ∃ n, read16 payload (NLA_ALIGN pt.len.toNat) = some
        n ∧
        NLA_ALIGN pt.len.toNat + max 4 n ≤ payload.length)
  | .nested => payload = [] ∨ leastLength pt ≤ payload.length
  | _ => leastLength pt ≤ payload.length

theorem le_align (n : Nat) : n ≤ NLA_ALIGN n := by
  rw [NLA_ALIGN]
  omega

theorem read16_of_le (h : off + 2 ≤ buf.length) : ∃ n, read16 buf off = some
    n := by
  refine ⟨buf[off].toNat + 256 * buf[off + 1].toNat, ?_⟩
  rw [read16, List.getElem?_eq_getElem (by omega : off < buf.length),
    List.getElem?_eq_getElem (by omega : off + 1 < buf.length)]
  rfl

theorem Walk.unique (h : Walk buf off as) (h' : Walk buf off as') : as = as' := by
  induction h generalizing as' with
  | done hnone =>
    cases h' with
    | done => rfl
    | attr ha hoff => exact absurd ha (hnone _ hoff)
  | @attr off as a ha hoff rest ih =>
    cases h' with
    | done hnone => exact absurd ha (hnone _ hoff)
    | @attr _ as' a' ha' hoff' rest' =>
      have hlen : a.len = a'.len := by
        have heq := ha.len
        rw [hoff, ← hoff', ha'.len] at heq
        exact (some.inj heq).symm
      have htype : a.type = a'.type := by
        have heq := ha.type
        rw [hoff, ← hoff', ha'.type] at heq
        exact (some.inj heq).symm
      rw [← hlen] at rest'
      rw [ih rest', show a = a' from by
        cases a
        cases a'
        simp only [Attr.mk.injEq]
        exact ⟨hoff.trans hoff'.symm, hlen, htype⟩]

section Payloads

variable {buf : List Byte} {a : Attr}

theorem Attr.Fits.length_payload (ha : a.Fits buf) : (a.payload buf).length = a.len - 4 := by
  have hinside := ha.inside
  rw [payload, length_take, length_drop]
  omega

theorem Attr.Fits.nlaLen (ha : a.Fits buf) :
    nlaLen buf a.off = some ((a.payload buf).length : Int) := by
  have hheader := ha.header
  rw [Netlink.nlaLen, ha.len, map_some, ha.length_payload, NLA_HDRLEN]
  congr 1
  omega

theorem Attr.payload_get (a : Attr) (hk : k < (a.payload buf).length) :
    (a.payload buf)[k]? = buf[a.off + 4 + k]? := by
  rw [payload, length_take] at hk
  rw [payload, getElem?_take_of_lt (by omega), getElem?_drop]

theorem Attr.payload_read16 (a : Attr) (hk : k + 2 ≤ (a.payload buf).length) :
    read16 (a.payload buf) k = read16 buf (a.off + 4 + k) := by
  rw [read16, a.payload_get (by omega), a.payload_get (by omega)]
  rfl

theorem memchr_payload (a : Attr) (hn : i + n ≤ (a.payload buf).length) :
    memchr buf (a.off + 4 + i) n = some (decide (0#8 ∈ ((a.payload buf).drop i).take n)) := by
  induction n generalizing i with
  | zero => simp [memchr]
  | succ n ih =>
    have hlt : i < (a.payload buf).length := by omega
    have hget := a.payload_get hlt
    rw [List.getElem?_eq_getElem hlt] at hget
    rw [memchr, ← hget, drop_eq_getElem_cons hlt, take_succ_cons]
    have hnext := ih (i := i + 1) (by omega)
    by_cases hzero : (a.payload buf)[i] = 0#8
    · simp [hzero]
    · simp only [bind_eq_bind, bind_some, if_neg hzero]
      rw [Nat.add_assoc (a.off + 4) i 1, hnext]
      simp [Ne.symm hzero]

theorem checkString_spec (buf : List Byte) (a : Attr) (pt : Policy) :
    ∃ e, checkString buf a.off ((a.payload buf).length : Int) pt = some e ∧
      (0 ≤ e → StringFits pt (a.payload buf)) := by
  rw [checkString]
  by_cases hempty : ((a.payload buf).length : Int) < 1
  · exact ⟨-ERANGE, if_pos hempty, fun h => absurd h (by decide)⟩
  · have hpos : 0 < (a.payload buf).length := by omega
    have hne : a.payload buf ≠ [] := length_pos_iff.mp hpos
    rw [if_neg hempty]
    by_cases hlen : pt.len ≠ 0#16
    · obtain ⟨x, hx⟩ : ∃ x, (a.payload buf)[(a.payload buf).length - 1]? = some x :=
        ⟨_, List.getElem?_eq_getElem (by omega)⟩
      have hread : Buffer.get buf (a.off + NLA_HDRLEN + (a.payload buf).length - 1) = some x := by
        rw [a.payload_get (by omega)] at hx
        rw [← hx, ← Buffer.get_natCast, NLA_HDRLEN]
        congr 1
        omega
      have hlast : (a.payload buf).getLast? = some x := by
        rw [getLast?_eq_getElem?]
        exact hx
      rw [if_pos hlen, hread]
      refine ⟨_, rfl, fun h0 => ⟨hne, fun _ => ?_⟩⟩
      rw [hlast]
      by_cases hzero : x = 0#8
      · rw [if_pos (congrArg some hzero), length_dropLast]
        rw [if_pos hzero] at h0
        split at h0
        next => exact absurd h0 (by decide)
        next hle => omega
      · rw [if_neg fun h => hzero (some.inj h)]
        rw [if_neg hzero] at h0
        split at h0
        next => exact absurd h0 (by decide)
        next hle => omega
    · rw [if_neg hlen]
      exact ⟨0, rfl, fun _ => ⟨hne, fun h => absurd h hlen⟩⟩

theorem checkNulString_spec (buf : List Byte) (a : Attr) (pt : Policy) :
    ∃ e, checkNulString buf a.off ((a.payload buf).length : Int) pt = some e ∧
      (0 ≤ e → StringFits pt (a.payload buf) ∧ 0#8 ∈
        if pt.len ≠ 0#16 then (a.payload buf).take (pt.len.toNat + 1) else a.payload buf) := by
  rw [checkNulString]
  generalize hmin : (if pt.len ≠ 0#16 then min ((a.payload buf).length : Int) (pt.len.toNat + 1)
    else ((a.payload buf).length : Int)) = minlen
  -- The zero is looked for in what is there of the part that counts.
  have hpart : minlen.toNat ≤ (a.payload buf).length ∧ (a.payload buf).take minlen.toNat =
      if pt.len ≠ 0#16 then (a.payload buf).take (pt.len.toNat + 1) else a.payload buf := by
    rw [← hmin]
    split
    next =>
      have hnat : (min ((a.payload buf).length : Int) (pt.len.toNat + 1)).toNat =
          min (a.payload buf).length (pt.len.toNat + 1) := by omega
      rw [hnat]
      rw [take_eq_take_iff]
      omega
    next =>
      exact ⟨Nat.le_refl _, take_length⟩
  by_cases hzero : minlen = 0
  · exact ⟨-EINVAL, if_pos hzero, fun h => absurd h (by decide)⟩
  · have hfind := memchr_payload a (show 0 + minlen.toNat ≤ (a.payload buf).length by omega)
    rw [drop_zero, hpart.2] at hfind
    rw [if_neg hzero, hfind]
    by_cases hmem : 0#8 ∈
        if pt.len ≠ 0#16 then (a.payload buf).take (pt.len.toNat + 1) else a.payload buf
    · obtain ⟨e, he, hfits⟩ := checkString_spec buf a pt
      refine ⟨e, ?_, fun h0 => ⟨hfits h0, hmem⟩⟩
      rw [decide_eq_true hmem]
      exact he
    · refine ⟨-EINVAL, ?_, fun h => absurd h (by decide)⟩
      rw [decide_eq_false hmem]
      rfl

theorem checkNestedCompat_spec (buf : List Byte) (a : Attr) (pt : Policy) :
    ∃ e, checkNestedCompat buf a.off ((a.payload buf).length : Int) pt = some e ∧
      (0 ≤ e → pt.len.toNat ≤ (a.payload buf).length ∧
        (NLA_ALIGN pt.len.toNat ≤ (a.payload buf).length →
          ∃ n, read16 (a.payload buf) (NLA_ALIGN pt.len.toNat) = some n ∧
            NLA_ALIGN pt.len.toNat + max 4 n ≤ (a.payload buf).length)) := by
  rw [checkNestedCompat]
  generalize hm : (a.payload buf).length = m
  generalize hal : NLA_ALIGN pt.len.toNat = aligned
  by_cases h₁ : (m : Int) < pt.len.toNat
  · exact ⟨-ERANGE, if_pos h₁, fun h => absurd h (by decide)⟩
  rw [if_neg h₁]
  by_cases h₂ : (m : Int) < aligned
  · exact ⟨0, if_pos h₂, fun _ => ⟨by omega, fun h => by omega⟩⟩
  rw [if_neg h₂]
  by_cases h₃ : (m : Int) < aligned + NLA_HDRLEN
  · exact ⟨-ERANGE, if_pos h₃, fun h => absurd h (by decide)⟩
  rw [if_neg h₃]
  rw [NLA_HDRLEN] at h₃
  obtain ⟨n, hn⟩ : ∃ n, read16 (a.payload buf) aligned = some n := read16_of_le (by omega)
  have hinner : nlaLen buf (a.off + 4 + aligned) = some ((n : Int) - NLA_HDRLEN) := by
    rw [nlaLen, ← a.payload_read16 (by omega), hn]
    rfl
  rw [hinner]
  refine ⟨_, rfl, fun h0 => ⟨by omega, fun _ => ⟨n, hn, ?_⟩⟩⟩
  split at h0
  next => exact absurd h0 (by decide)
  next hle =>
    omega

theorem checkMinlen_spec (m : Nat) (pt : Policy) (h0 : 0 ≤ checkMinlen m pt) :
    leastLength pt ≤ m := by
  rw [checkMinlen] at h0
  have hmin : (if pt.len ≠ 0#16 then pt.len.toNat
      else if pt.type ≠ .unspec then nlaAttrMinlen pt.type else 0) = leastLength pt := by
    rw [leastLength]
    split
    next => rfl
    next =>
      split
      next => rfl
      next htype =>
        rw [not_not] at htype
        rw [htype]
        rfl
  simp only [hmin] at h0
  split at h0
  next => exact absurd h0 (by decide)
  next hle => omega

theorem validateNla_spec (ha : a.Fits buf) (policy : Nat → Policy) (hpos : 0 < a.type)
    (hmax : a.type ≤ maxtype) : ∃ e, validateNla buf a.off maxtype policy = some e ∧
      (0 ≤ e → (policy a.type).Admits (a.payload buf)) := by
  have hrange : ¬ (a.type = 0 ∨ maxtype < a.type) := by omega
  simp only [validateNla, ha.nlaLen, ha.type, bind_eq_bind, bind_some, if_neg hrange]
  generalize policy a.type = pt
  have hminlen : ∃ e, some (checkMinlen (a.payload buf).length pt) = some e ∧
      (0 ≤ e → leastLength pt ≤ (a.payload buf).length) :=
    ⟨_, rfl, checkMinlen_spec _ pt⟩
  rw [Policy.Admits]
  cases htype : pt.type with
  | flag =>
    refine ⟨_, rfl, fun h0 => ?_⟩
    split at h0
    next => exact absurd h0 (by decide)
    next hle => exact length_eq_zero_iff.mp (by omega)
  | nulString => exact checkNulString_spec buf a pt
  | string => exact checkString_spec buf a pt
  | binary =>
    refine ⟨_, rfl, fun h0 hlen => ?_⟩
    split at h0
    next => exact absurd h0 (by decide)
    next hle => exact Nat.not_lt.mp fun hlt => hle ⟨hlen, Int.ofNat_lt.mpr hlt⟩
  | nestedCompat => exact checkNestedCompat_spec buf a pt
  | nested =>
    refine ⟨_, rfl, fun h0 => ?_⟩
    split at h0
    next hzero => exact .inl (length_eq_zero_iff.mp (by omega))
    next => exact .inr (checkMinlen_spec _ pt h0)
  | _ => exact hminlen

end Payloads

theorem nlaOk_of_fits {a : Attr} (ha : a.Fits buf)
    (hrem : remaining = (buf.length : Int) - a.off) : nlaOk buf a.off remaining = some true := by
  have hheader := ha.header
  have hinside := ha.inside
  rw [nlaOk, if_pos (by omega), ha.len]
  simp only [map_some, some.injEq, Bool.and_eq_true, decide_eq_true_eq]
  omega

theorem nlaOk_of_not_fits (h : ∀ a : Attr, a.off = off → ¬ a.Fits buf)
    (hrem : remaining = (buf.length : Int) - off) : nlaOk buf off remaining = some false := by
  rw [nlaOk]
  split
  next hroom =>
    obtain ⟨n, hn⟩ : ∃ n, read16 buf off = some n := read16_of_le (by omega)
    obtain ⟨t, ht⟩ : ∃ t, read16 buf (off + 2) = some t := read16_of_le (by omega)
    rw [hn]
    simp only [map_some, some.injEq, Bool.and_eq_false_iff, decide_eq_false_iff_not]
    have htype : nlaType buf off = some (t &&& 0x3fff) := by
      rw [nlaType, ht]
      rfl
    by_contra hcon
    refine h ⟨off, n, t &&& 0x3fff⟩ rfl ⟨hn, htype, ?_, ?_⟩
    · show 4 ≤ n
      omega
    · show off + n ≤ buf.length
      omega
  next => rfl

theorem walk_exists (buf : List Byte) (off : Nat) :
    ∃ as, Walk buf off as ∧ as.length ≤ buf.length - off := by
  by_cases h : ∃ a : Attr, a.off = off ∧ a.Fits buf
  · obtain ⟨a, hoff, ha⟩ := h
    have hheader := ha.header
    have hinside := ha.inside
    have halign := le_align a.len
    obtain ⟨as, hwalk, hlength⟩ := walk_exists buf (off + NLA_ALIGN a.len)
    refine ⟨a :: as, .attr ha hoff hwalk, ?_⟩
    rw [length_cons]
    omega
  · refine ⟨[], .done fun a hoff ha => h ⟨a, hoff, ha⟩, Nat.zero_le _⟩
termination_by buf.length - off

theorem lastOf_append_singleton (t : Nat) (as : List Attr) (a : Attr) :
    lastOf t (as ++ [a]) = if a.type = t then some a else lastOf t as := by
  rw [lastOf, List.reverse_append, reverse_singleton, singleton_append, find?_cons]
  by_cases h : a.type = t
  · rw [if_pos h, beq_iff_eq.mpr h]
  · rw [if_neg h, beq_false_of_ne h]
    rfl

structure Parsed (buf : List Byte) (maxtype : Nat) (policy : Option (Nat → Policy))
    (seen : List Attr) (tb : Table) : Prop where
  last : ∀ t, 1 ≤ t → t ≤ maxtype → tb t = (lastOf t seen).map Attr.off
  inside : ∀ a ∈ seen, a.off + a.len ≤ buf.length
  rules : ∀ p, policy = some p → ∀ a ∈ seen, 1 ≤ a.type → a.type ≤ maxtype →
    (p a.type).Admits (a.payload buf)

theorem judge_spec {a : Attr} (ha : a.Fits buf) (maxtype : Nat) (policy : Option (Nat → Policy)) :
    ∃ e, judge buf maxtype policy a.off a.type = some e ∧ (0 ≤ e → ∀ p, policy = some p →
      1 ≤ a.type → a.type ≤ maxtype → (p a.type).Admits (a.payload buf)) := by
  unfold judge
  by_cases htype : 0 < a.type ∧ a.type ≤ maxtype
  · rw [if_pos htype]
    cases policy with
    | none => exact ⟨0, rfl, fun _ p hp => absurd hp (some_ne_none p).symm⟩
    | some policy =>
      obtain ⟨e, he, hadmits⟩ := validateNla_spec ha policy htype.1 htype.2
      refine ⟨e, he, fun h0 p hp _ _ => ?_⟩
      rw [← some.inj hp]
      exact hadmits h0
  · exact ⟨0, if_neg htype, fun _ p _ h₁ h₂ => absurd ⟨h₁, h₂⟩ htype⟩

theorem Parsed.snoc (h : Parsed buf maxtype policy seen tb)
    (ha : a.Fits buf) (hrules : ∀ p, policy = some p → 1 ≤ a.type → a.type ≤ maxtype →
      (p a.type).Admits (a.payload buf)) :
    Parsed buf maxtype policy (seen ++ [a])
      (if 0 < a.type ∧ a.type ≤ maxtype then update tb a.type (some a.off) else tb) where
  last t hpos hmax := by
    rw [lastOf_append_singleton]
    by_cases ht : a.type = t
    · rw [if_pos ht, if_pos (by omega), ht, update_self]
      rfl
    · rw [if_neg ht, ← h.last t hpos hmax]
      split
      next => exact update_of_ne (Ne.symm ht) _ _
      next => rfl
  inside b hb := by
    rcases mem_append.mp hb with hb | hb
    · exact h.inside b hb
    · rw [mem_singleton.mp hb]
      exact ha.inside
  rules p hp b hb := by
    rcases mem_append.mp hb with hb | hb
    · exact h.rules p hp b hb
    · rw [mem_singleton.mp hb]
      exact hrules p hp

theorem parseTurn_attr (ha : a.Fits buf) (h : Parsed buf maxtype policy seen tb) :
    (∃ tb', parseTurn buf maxtype policy ⟨a.off, (buf.length : Int) - a.off, tb⟩ =
        .next ⟨a.off + NLA_ALIGN a.len, (buf.length : Int) - (a.off + NLA_ALIGN a.len : Nat), tb'⟩ ∧
      Parsed buf maxtype policy (seen ++ [a]) tb') ∨
    ∃ e, parseTurn buf maxtype policy ⟨a.off, (buf.length : Int) - a.off, tb⟩ =
      .stop (some (e, tb)) ∧ e < 0 := by
  obtain ⟨e, he, hrules⟩ := judge_spec ha maxtype policy
  simp only [parseTurn, parseBody, nlaOk_of_fits ha rfl, ha.type, he, ha.len,
    bind_eq_bind, bind_some]
  by_cases hneg : e < 0
  · rw [if_pos hneg]
    exact .inr ⟨e, rfl, hneg⟩
  · rw [if_neg hneg]
    refine .inl ⟨_, ?_, h.snoc ha (hrules (by omega))⟩
    rw [Int.natCast_add, ← Int.sub_sub]
    rfl

theorem parseTurn_done (h : ∀ a : Attr, a.off = off → ¬ a.Fits buf) :
    parseTurn buf maxtype policy ⟨off, (buf.length : Int) - off, tb⟩ = .stop (some (0, tb)) := by
  simp only [parseTurn, parseBody, nlaOk_of_not_fits h rfl]
  rfl

/-- `nla_parse` ends and reads nothing outside the stream. If it returns zero, the table has the
last attribute of each type, and all attributes met obey the policy. -/
theorem nla_parse_sound (buf : List Byte) (maxtype : Nat) (policy : Option (Nat → Policy)) :
    ∃ as err tb, Walk buf 0 as ∧ (∀ as', Walk buf 0 as' → as' = as) ∧
      nlaParse buf maxtype policy = some (err, tb) ∧
      (err = 0 → Parsed buf maxtype policy as tb) := by
  obtain ⟨as, hwalk, hlength⟩ := walk_exists buf 0
  -- The attributes met so far, then those ahead, are the attributes of the walk.
  let Inv (k : Nat) (c : Cursor) : Prop := ∃ seen ahead, seen ++ ahead = as ∧ ahead.length = k ∧
    c.rem = (buf.length : Int) - c.nla ∧ Walk buf c.nla ahead ∧
    Parsed buf maxtype policy seen c.tb
  have hstart : Inv as.length ⟨0, buf.length, fun _ => none⟩ :=
    ⟨[], as, rfl, rfl, (Int.sub_zero _).symm, hwalk, ⟨fun _ _ _ => rfl,
      fun _ h => absurd h not_mem_nil, fun _ _ _ h => absurd h not_mem_nil⟩⟩
  have hstops : ∃ r, runFor (parseTurn buf maxtype policy) (buf.length + 1)
      ⟨0, buf.length, fun _ => none⟩ = some r ∧
        ∃ err tb, r = some (err, tb) ∧ (err = 0 → Parsed buf maxtype policy as tb) := by
    apply runFor_stops_within Inv _ hstart (by omega)
    rintro k ⟨nla, remaining, tb⟩ ⟨seen, ahead, hsplit, hk, hrem, hahead, hparsed⟩
    obtain rfl : remaining = (buf.length : Int) - nla := hrem
    cases hahead with
    | done hnone =>
      rw [append_nil] at hsplit
      exact .inr ⟨_, parseTurn_done hnone, 0, tb, rfl, fun _ => hsplit ▸ hparsed⟩
    | @attr _ rest a ha hoff hrest =>
      obtain rfl : a.off = nla := hoff
      rcases parseTurn_attr ha hparsed with ⟨tb', hturn, hparsed'⟩ | ⟨e, hturn, hneg⟩
      · refine .inl ⟨rest.length, _, hturn, ?_, seen ++ [a], rest, ?_, rfl, rfl, hrest, hparsed'⟩
        · rw [← hk]
          exact Nat.lt_succ_self _
        · rw [List.append_assoc]
          exact hsplit
      · exact .inr ⟨_, hturn, e, tb, rfl, fun h0 => absurd h0 (Int.ne_of_lt hneg)⟩
  obtain ⟨r, hrun, err, tb, rfl, hgood⟩ := hstops
  refine ⟨as, err, tb, hwalk, fun as' h' => h'.unique hwalk, ?_, hgood⟩
  rw [nlaParse, hrun]
  rfl

end SpicaKernel.Netlink

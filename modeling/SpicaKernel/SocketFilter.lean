import Mathlib.Algebra.Group.Int.Defs
import Mathlib.Algebra.Group.Nat.Defs
import SpicaKernel.Runs

namespace SpicaKernel.SocketFilter
set_option autoImplicit true

def BPF_LD : UInt16 := 0x00
def BPF_LDX : UInt16 := 0x01
def BPF_ST : UInt16 := 0x02
def BPF_STX : UInt16 := 0x03
def BPF_ALU : UInt16 := 0x04
def BPF_JMP : UInt16 := 0x05
def BPF_RET : UInt16 := 0x06
def BPF_MISC : UInt16 := 0x07
def BPF_W : UInt16 := 0x00
def BPF_H : UInt16 := 0x08
def BPF_B : UInt16 := 0x10
def BPF_IMM : UInt16 := 0x00
def BPF_ABS : UInt16 := 0x20
def BPF_IND : UInt16 := 0x40
def BPF_MEM : UInt16 := 0x60
def BPF_LEN : UInt16 := 0x80
def BPF_MSH : UInt16 := 0xa0
def BPF_ADD : UInt16 := 0x00
def BPF_SUB : UInt16 := 0x10
def BPF_MUL : UInt16 := 0x20
def BPF_DIV : UInt16 := 0x30
def BPF_OR : UInt16 := 0x40
def BPF_AND : UInt16 := 0x50
def BPF_LSH : UInt16 := 0x60
def BPF_RSH : UInt16 := 0x70
def BPF_NEG : UInt16 := 0x80
def BPF_JA : UInt16 := 0x00
def BPF_JEQ : UInt16 := 0x10
def BPF_JGT : UInt16 := 0x20
def BPF_JGE : UInt16 := 0x30
def BPF_JSET : UInt16 := 0x40
def BPF_K : UInt16 := 0x00
def BPF_X : UInt16 := 0x08
def BPF_A : UInt16 := 0x10
def BPF_TAX : UInt16 := 0x00
def BPF_TXA : UInt16 := 0x80
def BPF_MAXINSNS : Nat := 4096
def BPF_MEMWORDS : Nat := 16

def SKF_AD_OFF : Int := -0x1000
def SKF_AD_PROTOCOL : Int := 0
def SKF_AD_PKTTYPE : Int := 4
def SKF_AD_IFINDEX : Int := 8
def SKF_AD_NLATTR : Int := 12
def SKF_AD_NLATTR_NEST : Int := 16
def SKF_NET_OFF : Int := -0x100000
def SKF_LL_OFF : Int := -0x200000

def EINVAL : Int := 22

def bpfClass (code : UInt16) : UInt16 := code &&& 0x07

structure SockFilter where
  code : UInt16
  jt : UInt8
  jf : UInt8
  k : UInt32
  deriving DecidableEq

inductive Source where
  | k
  | x
  deriving DecidableEq

inductive AluOp where
  | add
  | sub
  | mul
  | div
  | and
  | or
  | lsh
  | rsh
  deriving DecidableEq

inductive JmpOp where
  | jgt
  | jge
  | jeq
  | jset
  deriving DecidableEq

inductive Size where
  | w
  | h
  | b
  deriving DecidableEq

/-- The case labels of the two switch statements; both functions list the same ones. -/
inductive Opcode where
  | alu (op : AluOp) (src : Source)
  | neg
  | ja
  | jmp (op : JmpOp) (src : Source)
  | ldAbs (size : Size)
  | ldInd (size : Size)
  | ldLen
  | ldxLen
  | ldxMsh
  | ldImm
  | ldxImm
  | ldMem
  | ldxMem
  | tax
  | txa
  | retK
  | retA
  | st
  | stx
  deriving DecidableEq

def Source.code : Source → UInt16
  | .k => BPF_K
  | .x => BPF_X

def AluOp.code : AluOp → UInt16
  | .add => BPF_ADD
  | .sub => BPF_SUB
  | .mul => BPF_MUL
  | .div => BPF_DIV
  | .and => BPF_AND
  | .or => BPF_OR
  | .lsh => BPF_LSH
  | .rsh => BPF_RSH

def JmpOp.code : JmpOp → UInt16
  | .jgt => BPF_JGT
  | .jge => BPF_JGE
  | .jeq => BPF_JEQ
  | .jset => BPF_JSET

def Size.code : Size → UInt16
  | .w => BPF_W
  | .h => BPF_H
  | .b => BPF_B

def Size.bytes : Size → Nat
  | .w => 4
  | .h => 2
  | .b => 1

def Opcode.code : Opcode → UInt16
  | .alu op src => BPF_ALU ||| op.code ||| src.code
  | .neg => BPF_ALU ||| BPF_NEG
  | .ja => BPF_JMP ||| BPF_JA
  | .jmp op src => BPF_JMP ||| op.code ||| src.code
  | .ldAbs size => BPF_LD ||| size.code ||| BPF_ABS
  | .ldInd size => BPF_LD ||| size.code ||| BPF_IND
  | .ldLen => BPF_LD ||| BPF_W ||| BPF_LEN
  | .ldxLen => BPF_LDX ||| BPF_W ||| BPF_LEN
  | .ldxMsh => BPF_LDX ||| BPF_B ||| BPF_MSH
  | .ldImm => BPF_LD ||| BPF_IMM
  | .ldxImm => BPF_LDX ||| BPF_IMM
  | .ldMem => BPF_LD ||| BPF_MEM
  | .ldxMem => BPF_LDX ||| BPF_MEM
  | .tax => BPF_MISC ||| BPF_TAX
  | .txa => BPF_MISC ||| BPF_TXA
  | .retK => BPF_RET ||| BPF_K
  | .retA => BPF_RET ||| BPF_A
  | .st => BPF_ST
  | .stx => BPF_STX

def sources : List Source := [.k, .x]

def sizes : List Size := [.w, .h, .b]

def aluOps : List AluOp := [.add, .sub, .mul, .div, .and, .or, .lsh, .rsh]

def jmpOps : List JmpOp := [.jgt, .jge, .jeq, .jset]

def opcodes : List Opcode :=
  aluOps.flatMap (fun op => sources.map (.alu op))
    ++ jmpOps.flatMap (fun op => sources.map (.jmp op))
    ++ sizes.map .ldAbs ++ sizes.map .ldInd
    ++ [.neg, .ja, .ldLen, .ldxLen, .ldxMsh, .ldImm, .ldxImm, .ldMem, .ldxMem, .tax, .txa,
      .retK, .retA, .st, .stx]

/-- The label that a switch on the instruction's code takes, `none` for `default`. -/
def decode (code : UInt16) : Option Opcode := opcodes.find? (fun op => op.code == code)

theorem code_of_decode (h : decode code = some op) : op.code = code := by
  have hb := List.find?_some h
  exact beq_iff_eq.mp hb

theorem ret_of_class (h : decode code = some op) (hc : bpfClass code = BPF_RET) :
    op = .retK ∨ op = .retA := by
  have he := code_of_decode h
  subst he
  cases op with
  | alu op src => cases op <;> cases src <;> revert hc <;> decide
  | jmp op src => cases op <;> cases src <;> revert hc <;> decide
  | ldAbs size => cases size <;> revert hc <;> decide
  | ldInd size => cases size <;> revert hc <;> decide
  | _ => revert hc; decide

/-- What a filter can see of a `struct sk_buff`, in a memory with gaps; `fragments` is paged data.-/
structure SkBuff where
  memory : UInt32 → Option UInt8
  head : UInt32
  data : UInt32
  tail : UInt32
  networkHeader : UInt32
  macHeader : UInt32
  fragments : List UInt8
  protocol : UInt16
  pktType : UInt8
  dev : Option UInt32
  head_le : head ≤ data
  data_le : data ≤ tail
  -- the shared info behind the buffer keeps the tail away from the end of the address space
  room : tail.toNat + 3 < 2 ^ 32
  mapped : ∀ a : UInt32, head ≤ a → a.toNat < tail.toNat + 3 → (memory a).isSome
  small : tail.toNat - data.toNat + fragments.length < 2 ^ 31

def SkBuff.headlen (skb : SkBuff) : Nat := skb.tail.toNat - skb.data.toNat

def SkBuff.len (skb : SkBuff) : Nat := skb.headlen + skb.fragments.length

def SkBuff.nonlinear (skb : SkBuff) : Bool := !skb.fragments.isEmpty

/-- The byte of the packet at an offset, in the linear part or in the fragments. -/
def SkBuff.byte (skb : SkBuff) (i : Nat) : Option UInt8 :=
  if i < skb.headlen then skb.memory (skb.data + UInt32.ofNat i)
  else skb.fragments[i - skb.headlen]?

/-- A non-null result stands for the bytes behind the pointer. -/
def skbHeaderPointer (skb : SkBuff) (offset : Int) (size : Nat) : Option (Nat → Option UInt8) :=
  if (size : Int) ≤ skb.headlen - offset then some (fun i => skb.byte (offset.toNat + i))
  else if offset > (skb.len : Int) - size then none
  else some (fun i => skb.byte (offset.toNat + i))

def ptrAdd (p : UInt32) (i : Int) : UInt32 := UInt32.ofBitVec (BitVec.ofInt 32 (p.toNat + i))

/-- The pointer of `__load_pointer` before its checks. -/
def headerPointer (skb : SkBuff) (k : Int) : UInt32 :=
  if SKF_NET_OFF ≤ k then ptrAdd skb.networkHeader (k - SKF_NET_OFF)
  else if SKF_LL_OFF ≤ k then ptrAdd skb.macHeader (k - SKF_LL_OFF)
  else 0

/-- `__load_pointer`. -/
def loadHeaderPointer (skb : SkBuff) (k : Int) : Option (Nat → Option UInt8) :=
  let ptr := headerPointer skb k
  if skb.head ≤ ptr ∧ ptr < skb.tail then some (fun i => skb.memory (ptr + UInt32.ofNat i))
  else none

def loadPointer (skb : SkBuff) (k : Int) (size : Nat) : Option (Nat → Option UInt8) :=
  if 0 ≤ k then skbHeaderPointer skb k size
  else if SKF_AD_OFF ≤ k then none
  else loadHeaderPointer skb k

/-- `get_unaligned_be32`, `get_unaligned_be16` and the read of one byte. -/
def bigEndian (ptr : Nat → Option UInt8) : Nat → Option UInt32
  | 0 => some 0
  | n + 1 => do
    let high ← bigEndian ptr n
    let low ← ptr n
    return high <<< 8 ||| low.toUInt32

def ntohs (x : UInt16) : UInt16 := x <<< 8 ||| x >>> 8

/-- Conversion of an unsigned value to `int`. -/
def int (x : UInt32) : Int := x.toBitVec.toInt

def NLA_HDRLEN : Nat := 4

def NLA_TYPE_MASK : Nat := 0x3fff

def nlaAlign (len : Nat) : Nat := (len + 3) / 4 * 4

/-- A 16-bit field of an attribute, little endian. -/
def readField (memory : UInt32 → Option UInt8) (a : UInt32) : Option Nat := do
  let low ← memory a
  let high ← memory (a + 1)
  return low.toNat + 256 * high.toNat

/-- `nla_find`; the outer `none` is a read of an address that is not mapped. -/
def nlaFind (memory : UInt32 → Option UInt8) (nla : UInt32) (remaining attrtype : Int) :
    Option (Option UInt32) :=
  if _ : (NLA_HDRLEN : Int) ≤ remaining then
    match readField memory nla with
    | none => none
    | some len =>
      if _ : NLA_HDRLEN ≤ len ∧ (len : Int) ≤ remaining then
        match readField memory (nla + 2) with
        | none => none
        | some type =>
          if ((type &&& NLA_TYPE_MASK : Nat) : Int) = attrtype then some (some nla)
          else
            nlaFind memory (nla + UInt32.ofNat (nlaAlign len)) (remaining - nlaAlign len) attrtype
      else some none
  else some none
termination_by remaining.toNat
decreasing_by
  simp only [NLA_HDRLEN, nlaAlign] at *
  omega

/-- The registers and the scratch memory; `pc` is the `int` of the loop. -/
structure State where
  A : UInt32
  X : UInt32
  pc : Int
  mem : Fin BPF_MEMWORDS → UInt32

/-- What no C program may do. -/
inductive Fault where
  | pc
  | scratch
  | divide
  | access
  deriving DecidableEq

/-- A return instruction, a `return 0`, the `default` branch, the end of the loop, or a fault. -/
inductive Exit where
  | ret (value : UInt32)
  | refuse
  | warn
  | offEnd
  | fault (f : Fault)
  deriving DecidableEq

/-- The shifts of the machine; C leaves open what counts of 32 and more do. -/
structure Shifter where
  lsh : UInt32 → UInt32 → UInt32
  rsh : UInt32 → UInt32 → UInt32
  lsh_small : ∀ a n, n < 32 → lsh a n = a <<< n
  rsh_small : ∀ a n, n < 32 → rsh a n = a >>> n

def int32 (x : Int) : Int := x.bmod (2 ^ 32)

def State.operand (s : State) (f : SockFilter) : Source → UInt32
  | .k => f.k
  | .x => s.X

/-- `pc += offset`, then the `pc++` of the loop. -/
def State.jump (s : State) (offset : Nat) : Turn State Exit :=
  .next { s with pc := int32 (int32 (s.pc + offset) + 1) }

def State.setA (s : State) (a : UInt32) : Turn State Exit := { s with A := a }.jump 0

def State.setX (s : State) (x : UInt32) : Turn State Exit := { s with X := x }.jump 0

def alu (cpu : Shifter) : AluOp → UInt32 → UInt32 → UInt32
  | .add, a, b => a + b
  | .sub, a, b => a - b
  | .mul, a, b => a * b
  | .div, a, b => a / b
  | .and, a, b => a &&& b
  | .or, a, b => a ||| b
  | .lsh, a, b => cpu.lsh a b
  | .rsh, a, b => cpu.rsh a b

def taken : JmpOp → UInt32 → UInt32 → Bool
  | .jgt, a, b => a > b
  | .jge, a, b => a ≥ b
  | .jeq, a, b => a == b
  | .jset, a, b => a &&& b != 0

/-- The end of both attribute loads: the offset of the attribute found, or zero. -/
def State.attribute (s : State) (skb : SkBuff) : Option (Option UInt32) → Turn State Exit
  | none => .stop (.fault .access)
  | some none => s.setA 0
  | some (some nla) => s.setA (nla - skb.data)

/-- `SKF_AD_NLATTR`, on a memory that need not be all of the packet's. -/
def nlattrIn (memory : UInt32 → Option UInt8) (skb : SkBuff) (s : State) : Turn State Exit :=
  if skb.nonlinear then .stop .refuse
  else if s.A > UInt32.ofNat skb.len - 4 then .stop .refuse
  else
    s.attribute skb (nlaFind memory (skb.data + s.A) (int (UInt32.ofNat skb.len - s.A)) (int s.X))

/-- `SKF_AD_NLATTR_NEST` in the same way. -/
def nlattrNestIn (memory : UInt32 → Option UInt8) (skb : SkBuff) (s : State) : Turn State Exit :=
  if skb.nonlinear then .stop .refuse
  else if s.A > UInt32.ofNat skb.len - 4 then .stop .refuse
  else
    match readField memory (skb.data + s.A) with
    | none => .stop (.fault .access)
    | some len =>
      -- both sides are unsigned, and the difference is the wrong way round
      if UInt32.ofNat len > s.A - UInt32.ofNat skb.len then .stop .refuse
      else
        s.attribute skb (nlaFind memory (skb.data + s.A + UInt32.ofNat NLA_HDRLEN)
            ((len : Int) - NLA_HDRLEN) (int s.X))

def nlattr (skb : SkBuff) : State → Turn State Exit := nlattrIn skb.memory skb

def nlattrNest (skb : SkBuff) : State → Turn State Exit := nlattrNestIn skb.memory skb

/-- `skb->dev->ifindex`, with no look at whether there is a device. -/
def ifindex (skb : SkBuff) (s : State) : Turn State Exit :=
  match skb.dev with
  | none => .stop (.fault .access)
  | some index => s.setA index

/-- The second switch, for offsets at which no packet byte was found. -/
def ancillary (skb : SkBuff) (s : State) (k : Int) : Turn State Exit :=
  let ad := k - SKF_AD_OFF
  if ad = SKF_AD_PROTOCOL then s.setA (ntohs skb.protocol).toUInt32
  else if ad = SKF_AD_PKTTYPE then s.setA skb.pktType.toUInt32
  else if ad = SKF_AD_IFINDEX then ifindex skb s
  else if ad = SKF_AD_NLATTR then nlattr skb s
  else if ad = SKF_AD_NLATTR_NEST then nlattrNest skb s
  else .stop .refuse

/-- The labels `load_w`, `load_h` and `load_b`. -/
def load (skb : SkBuff) (s : State) (k : Int) (size : Size) : Turn State Exit :=
  match loadPointer skb k size.bytes with
  | none => ancillary skb s k
  | some ptr =>
    match bigEndian ptr size.bytes with
    | none => .stop (.fault .access)
    | some v => s.setA v

def loadMsh (skb : SkBuff) (s : State) (f : SockFilter) : Turn State Exit :=
  match loadPointer skb (int f.k) 1 with
  | none => .stop .refuse
  | some ptr =>
    match bigEndian ptr 1 with
    | none => .stop (.fault .access)
    | some v => s.setX ((v &&& 0xf) <<< 2)

def State.readMem (s : State) (k : UInt32) (use : UInt32 → Turn State Exit) : Turn State Exit :=
  if h : k.toNat < BPF_MEMWORDS then use (s.mem ⟨k.toNat, h⟩) else .stop (.fault .scratch)

def State.writeMem (s : State) (k v : UInt32) : Turn State Exit :=
  if h : k.toNat < BPF_MEMWORDS then
    { s with mem := Function.update s.mem ⟨k.toNat, h⟩ v }.jump 0
  else .stop (.fault .scratch)

def divide (cpu : Shifter) (s : State) (f : SockFilter) : Source → Turn State Exit
  | .x => if s.X = 0 then .stop .refuse else s.setA (alu cpu .div s.A s.X)
  | .k => if f.k = 0 then .stop (.fault .divide) else s.setA (alu cpu .div s.A f.k)

/-- The cases of the switch of `sk_run_filter`. -/
def perform (cpu : Shifter) (skb : SkBuff) (s : State) (f : SockFilter) : Opcode → Turn State Exit
  | .alu .div src => divide cpu s f src
  | .alu op src => s.setA (alu cpu op s.A (s.operand f src))
  | .neg => s.setA (-s.A)
  | .ja => s.jump f.k.toNat
  | .jmp op src => s.jump (if taken op s.A (s.operand f src) then f.jt.toNat else f.jf.toNat)
  | .ldAbs size => load skb s (int f.k) size
  | .ldInd size => load skb s (int (s.X + f.k)) size
  | .ldLen => s.setA (UInt32.ofNat skb.len)
  | .ldxLen => s.setX (UInt32.ofNat skb.len)
  | .ldxMsh => loadMsh skb s f
  | .ldImm => s.setA f.k
  | .ldxImm => s.setX f.k
  | .ldMem => s.readMem f.k s.setA
  | .ldxMem => s.readMem f.k s.setX
  | .tax => s.setX s.A
  | .txa => s.setA s.X
  | .retK => .stop (.ret f.k)
  | .retA => .stop (.ret s.A)
  | .st => s.writeMem f.k s.A
  | .stx => s.writeMem f.k s.X

def execute (cpu : Shifter) (skb : SkBuff) (s : State) (f : SockFilter) : Turn State Exit :=
  match decode f.code with
  | some op => perform cpu skb s f op
  | none => .stop .warn

/-- One turn of the loop of `sk_run_filter`. -/
def turn (cpu : Shifter) (skb : SkBuff) (filter : List SockFilter) (s : State) : Turn State Exit :=
  if (filter.length : Int) ≤ s.pc then .stop .offEnd
  else if s.pc < 0 then .stop (.fault .pc)
  else
    match filter[s.pc.toNat]? with
    | none => .stop (.fault .pc)
    | some f => execute cpu skb s f

def entry (mem : Fin BPF_MEMWORDS → UInt32) : State := ⟨0, 0, 0, mem⟩

/-- The way out of `sk_run_filter`, `none` while so many instructions are not enough. -/
def skRunFilter (cpu : Shifter) (skb : SkBuff) (filter : List SockFilter)
    (mem : Fin BPF_MEMWORDS → UInt32) (fuel : Nat) : Option Exit :=
  runFor (turn cpu skb filter) fuel (entry mem)

/-- The cases of the switch of `sk_chk_filter`. -/
def allows (flen pc : Nat) (f : SockFilter) : Opcode → Bool
  | .alu .div .k => f.k != 0
  | .ldMem => f.k.toNat < BPF_MEMWORDS
  | .ldxMem => f.k.toNat < BPF_MEMWORDS
  | .st => f.k.toNat < BPF_MEMWORDS
  | .stx => f.k.toNat < BPF_MEMWORDS
  | .ja => f.k.toNat < flen - pc - 1
  | .jmp _ _ => pc + f.jt.toNat + 1 < flen && pc + f.jf.toNat + 1 < flen
  | _ => true

def checkInsn (flen pc : Nat) (f : SockFilter) : Bool :=
  match decode f.code with
  | some op => allows flen pc f op
  | none => false

/-- The loop of `sk_chk_filter` from one instruction on. -/
def checkFrom (flen : Nat) : Nat → List SockFilter → Bool
  | _, [] => true
  | pc, f :: fs => checkInsn flen pc f && checkFrom flen (pc + 1) fs

def skChkFilter (filter : List SockFilter) : Int :=
  let flen := filter.length
  if flen = 0 ∨ BPF_MAXINSNS < flen then -EINVAL
  else if !checkFrom flen 0 filter then -EINVAL
  else
    match filter.getLast? with
    | none => -EINVAL
    | some f => if bpfClass f.code = BPF_RET then 0 else -EINVAL

end SpicaKernel.SocketFilter

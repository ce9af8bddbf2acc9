import Mathlib.Tactic

/-!
# Socket filters

The checker `sk_chk_filter` and the interpreter `sk_run_filter` switch over the
same 16 bit codes. A code is decoded to its case label once, and each of the two
switches is a match on the label with its own default. The accumulator, the index
register, the scratch words and `pc` are 32 bit words as in the code, and `pc` is
read as an `int` where the loop compares it.

A packet is read through the kernel's memory, which is not mapped everywhere: an
access to an unmapped address, or through a `dev` that is NULL, is an oops. A left
or right shift by 32 bits or more has no meaning in C; its result is a parameter.
-/
namespace BooxKernel.Bpf

def bpfMaxinsns : ℕ := 4096
def bpfMemwords : ℕ := 16
def eINVAL : ℤ := 22

inductive Src
  | k
  | x
  deriving Repr, DecidableEq

inductive AluOp
  | add
  | sub
  | mul
  | div
  | or
  | and
  | lsh
  | rsh
  deriving Repr, DecidableEq

inductive JmpOp
  | jeq
  | jgt
  | jge
  | jset
  deriving Repr, DecidableEq

inductive Size
  | w
  | h
  | b
  deriving Repr, DecidableEq

/-- The case labels of the two switches. -/
inductive Opcode
  | alu (op : AluOp) (src : Src)
  | neg
  | ja
  | jmp (op : JmpOp) (src : Src)
  | ldAbs (size : Size)
  | ldInd (size : Size)
  | ldLen
  | ldImm
  | ldMem
  | ldxLen
  | ldxMsh
  | ldxImm
  | ldxMem
  | tax
  | txa
  | retK
  | retA
  | st
  | stx
  deriving Repr, DecidableEq

section Codes

def bpfLd : BitVec 16 := 0x00
def bpfLdx : BitVec 16 := 0x01
def bpfSt : BitVec 16 := 0x02
def bpfStx : BitVec 16 := 0x03
def bpfAlu : BitVec 16 := 0x04
def bpfJmp : BitVec 16 := 0x05
def bpfRet : BitVec 16 := 0x06
def bpfMisc : BitVec 16 := 0x07
def bpfImm : BitVec 16 := 0x00
def bpfAbs : BitVec 16 := 0x20
def bpfInd : BitVec 16 := 0x40
def bpfMem : BitVec 16 := 0x60
def bpfLen : BitVec 16 := 0x80
def bpfMsh : BitVec 16 := 0xa0
def bpfNeg : BitVec 16 := 0x80
def bpfJa : BitVec 16 := 0x00
def bpfK : BitVec 16 := 0x00
def bpfA : BitVec 16 := 0x10
def bpfTax : BitVec 16 := 0x00
def bpfTxa : BitVec 16 := 0x80

def bpfClass (code : BitVec 16) : BitVec 16 := code &&& 0x07

def Src.code : Src → BitVec 16
  | .k => 0x00
  | .x => 0x08

def AluOp.code : AluOp → BitVec 16
  | .add => 0x00
  | .sub => 0x10
  | .mul => 0x20
  | .div => 0x30
  | .or => 0x40
  | .and => 0x50
  | .lsh => 0x60
  | .rsh => 0x70

def JmpOp.code : JmpOp → BitVec 16
  | .jeq => 0x10
  | .jgt => 0x20
  | .jge => 0x30
  | .jset => 0x40

def Size.code : Size → BitVec 16
  | .w => 0x00
  | .h => 0x08
  | .b => 0x10

def Opcode.code : Opcode → BitVec 16
  | .alu op src => bpfAlu ||| op.code ||| src.code
  | .neg => bpfAlu ||| bpfNeg
  | .ja => bpfJmp ||| bpfJa
  | .jmp op src => bpfJmp ||| op.code ||| src.code
  | .ldAbs size => bpfLd ||| size.code ||| bpfAbs
  | .ldInd size => bpfLd ||| size.code ||| bpfInd
  | .ldLen => bpfLd ||| Size.w.code ||| bpfLen
  | .ldImm => bpfLd ||| bpfImm
  | .ldMem => bpfLd ||| bpfMem
  | .ldxLen => bpfLdx ||| Size.w.code ||| bpfLen
  | .ldxMsh => bpfLdx ||| Size.b.code ||| bpfMsh
  | .ldxImm => bpfLdx ||| bpfImm
  | .ldxMem => bpfLdx ||| bpfMem
  | .tax => bpfMisc ||| bpfTax
  | .txa => bpfMisc ||| bpfTxa
  | .retK => bpfRet ||| bpfK
  | .retA => bpfRet ||| bpfA
  | .st => bpfSt
  | .stx => bpfStx

def AluOp.all : List AluOp := [.add, .sub, .mul, .div, .or, .and, .lsh, .rsh]
def JmpOp.all : List JmpOp := [.jeq, .jgt, .jge, .jset]
def Size.all : List Size := [.w, .h, .b]

def Opcode.all : List Opcode :=
  (AluOp.all.flatMap fun op => [Opcode.alu op .x, Opcode.alu op .k]) ++
    (JmpOp.all.flatMap fun op => [Opcode.jmp op .k, Opcode.jmp op .x]) ++
    (Size.all.flatMap fun size => [Opcode.ldAbs size, Opcode.ldInd size]) ++
    [Opcode.neg, .ja, .ldLen, .ldImm, .ldMem, .ldxLen, .ldxMsh, .ldxImm, .ldxMem, .tax, .txa,
      .retK, .retA, .st, .stx]

/-- The case label that a code selects. -/
def decode (code : BitVec 16) : Option Opcode := Opcode.all.find? fun op => op.code = code

end Codes

structure SockFilter where
  code : BitVec 16
  jt : BitVec 8
  jf : BitVec 8
  k : BitVec 32
  deriving Repr, DecidableEq

section Checker

/-- The switch of `sk_chk_filter` at index `pc`; `false` is `return -EINVAL`. -/
def chkInsn (flen pc : ℕ) (ftest : SockFilter) : Bool :=
  match decode ftest.code with
  | some (.alu .div .k) => decide (ftest.k ≠ 0)
  | some (.alu _ _) => true
  | some .neg => true
  | some (.ldAbs _) => true
  | some (.ldInd _) => true
  | some .ldLen => true
  | some .ldImm => true
  | some .ldxLen => true
  | some .ldxMsh => true
  | some .ldxImm => true
  | some .tax => true
  | some .txa => true
  | some .retK => true
  | some .retA => true
  | some .ldMem => !decide (ftest.k.toNat ≥ bpfMemwords)
  | some .ldxMem => !decide (ftest.k.toNat ≥ bpfMemwords)
  | some .st => !decide (ftest.k.toNat ≥ bpfMemwords)
  | some .stx => !decide (ftest.k.toNat ≥ bpfMemwords)
  | some .ja => !decide (ftest.k.toNat ≥ flen - pc - 1)
  | some (.jmp _ _) =>
    !(decide (pc + ftest.jt.toNat + 1 ≥ flen) || decide (pc + ftest.jf.toNat + 1 ≥ flen))
  | none => false

/-- The loop of `sk_chk_filter` from index `pc` on. -/
def chkLoop (flen : ℕ) : ℕ → List SockFilter → Bool
  | _, [] => true
  | pc, ftest :: rest => if chkInsn flen pc ftest then chkLoop flen (pc + 1) rest else false

def skChkFilter (filter : List SockFilter) : ℤ :=
  let flen := filter.length
  if flen = 0 ∨ flen > bpfMaxinsns then -eINVAL
  else if chkLoop flen 0 filter then
    match filter[flen - 1]? with
    | none => -eINVAL
    | some last => if bpfClass last.code = bpfRet then 0 else -eINVAL
  else -eINVAL

end Checker

section Packets

abbrev Byte := BitVec 8

/-- The machine and the compiler: the width of `size_t`, the byte order, and the
results of shifts by 32 bits or more. -/
structure Platform where
  bitsPerLong : ℕ
  bigEndian : Bool
  lshOver : BitVec 32 → BitVec 32 → BitVec 32
  rshOver : BitVec 32 → BitVec 32 → BitVec 32

/-- The kernel's memory; `none` where nothing is mapped. -/
abbrev Memory := ℤ → Option Byte

/-- What the interpreter reads of a `struct sk_buff`. The bytes of the page
fragments and of the fragment list follow each other in `paged`, `protocol` is in
host order, and `dev` is the interface index of the device, if there is one. -/
structure SkBuff where
  memory : Memory
  head : ℤ
  data : ℤ
  tail : ℤ
  networkHeader : ℤ
  macHeader : ℤ
  len : BitVec 32
  dataLen : BitVec 32
  paged : List Byte
  protocol : BitVec 16
  pktType : BitVec 3
  dev : Option (BitVec 32)

def skfAdOff : ℤ := -0x1000
def skfAdProtocol : ℤ := 0
def skfAdPkttype : ℤ := 4
def skfAdIfindex : ℤ := 8
def skfAdNlattr : ℤ := 12
def skfNetOff : ℤ := -0x100000
def skfLlOff : ℤ := -0x200000

/-- Read `n` bytes; `none` is an oops. -/
def readBytes (m : Memory) (a : ℤ) : ℕ → Option (List Byte)
  | 0 => some []
  | n + 1 => do
    let b ← m a
    let bs ← readBytes m (a + 1) n
    return b :: bs

/-- The value of big endian bytes. -/
def beValue (bytes : List Byte) : BitVec 32 := bytes.foldl (fun v b => v <<< 8 ||| b.setWidth 32) 0

def skbHeadlen (skb : SkBuff) : BitVec 32 := skb.len - skb.dataLen

/-- `skb_copy_bits`: the inner `none` is `-EFAULT`, the outer one an oops. -/
def skbCopyBits (skb : SkBuff) (offset len : ℤ) : Option (Option (List Byte)) :=
  let start := (skbHeadlen skb).toInt
  if offset > skb.len.toInt - len then some none
  else
    let copy := max 0 (min (start - offset) len)
    match readBytes skb.memory (skb.data + offset) copy.toNat with
    | none => none
    | some header =>
      let rest := (skb.paged.drop (offset + copy - start).toNat).take (len - copy).toNat
      if rest.length = (len - copy).toNat then some (some (header ++ rest)) else some none

/-- A pointer into memory, or to the interpreter's own buffer with its contents. -/
inductive Pointer
  | addr (a : ℤ)
  | buffer (bytes : List Byte)

def skbHeaderPointer (skb : SkBuff) (offset len : ℤ) : Option (Option Pointer) :=
  let hlen := (skbHeadlen skb).toInt
  if hlen - offset ≥ len then some (some (.addr (skb.data + offset)))
  else (skbCopyBits skb offset len).map (Option.map .buffer)

/-- `__load_pointer`. -/
def slowLoadPointer (skb : SkBuff) (k : ℤ) : Option ℤ :=
  let ptr := if k ≥ skfNetOff then some (skb.networkHeader + k - skfNetOff)
    else if k ≥ skfLlOff then some (skb.macHeader + k - skfLlOff)
    else none
  ptr.filter fun ptr => decide (ptr ≥ skb.head) && decide (ptr < skb.tail)

/-- `load_pointer`: the inner `none` is NULL, the outer one an oops. -/
def loadPointer (skb : SkBuff) (k size : ℤ) : Option (Option Pointer) :=
  if k ≥ 0 then skbHeaderPointer skb k size
  else if k ≥ skfAdOff then some none
  else some ((slowLoadPointer skb k).map .addr)

/-- The `size` bytes at offset `k`, when `load_pointer` finds them. -/
def loadBytes (skb : SkBuff) (k : ℤ) (size : ℕ) : Option (Option (List Byte)) :=
  match loadPointer skb k size with
  | none => none
  | some none => some none
  | some (some (.buffer bytes)) => some (some bytes)
  | some (some (.addr a)) => (readBytes skb.memory a size).map some

end Packets

section Attributes

/-- An unsigned 16 bit number in memory. -/
def readU16 (pf : Platform) (m : Memory) (a : ℤ) : Option ℕ := do
  let b0 ← m a
  let b1 ← m (a + 1)
  return if pf.bigEndian then b0.toNat * 256 + b1.toNat else b1.toNat * 256 + b0.toNat

def sizeofNlattr : ℕ := 4

/-- `nla_ok`. The first comparison converts `remaining` to `size_t`, the last one
is signed. -/
def nlaOk (pf : Platform) (m : Memory) (nla remaining : ℤ) : Option Bool :=
  if remaining % 2 ^ pf.bitsPerLong < sizeofNlattr then some false
  else (readU16 pf m nla).map fun len =>
    decide (len ≥ sizeofNlattr) && decide ((len : ℤ) ≤ remaining)

def nlaAlign (len : ℕ) : ℕ := (len + 3) / 4 * 4

/-- `nla_type`: the two flag bits of the field are masked out. -/
def nlaType (pf : Platform) (m : Memory) (nla : ℤ) : Option ℤ :=
  (readU16 pf m (nla + 2)).map fun type => ((type % 2 ^ 14 : ℕ) : ℤ)

lemma nlaOk_length {pf : Platform} {m : Memory} {nla remaining : ℤ} {len : ℕ}
    (hok : nlaOk pf m nla remaining = some true) (hlen : readU16 pf m nla = some len) :
    4 ≤ len ∧ (len : ℤ) ≤ remaining := by
  unfold nlaOk at hok
  split_ifs at hok
  · simp at hok
  · simpa [hlen, sizeofNlattr] using hok

/-- `nla_find` from attribute `nla` on: the inner `none` is NULL, the outer one an
oops. -/
def nlaFind (pf : Platform) (m : Memory) (nla remaining attrtype : ℤ) : Option (Option ℤ) :=
  match _hok : nlaOk pf m nla remaining with
  | none => none
  | some false => some none
  | some true =>
    match nlaType pf m nla with
    | none => none
    | some type =>
      if type = attrtype then some (some nla)
      else
        match _hlen : readU16 pf m nla with
        | none => none
        | some len => nlaFind pf m (nla + nlaAlign len) (remaining - nlaAlign len) attrtype
termination_by remaining.toNat
decreasing_by
  have h := nlaOk_length _hok _hlen
  unfold nlaAlign
  omega

end Attributes

section Interpreter

structure State where
  A : BitVec 32
  X : BitVec 32
  mem : Fin bpfMemwords → BitVec 32
  pc : BitVec 32

/-- How a run ends: by a `RET` instruction, by a `return 0` of a case or of the
ancillary loads, by the default of the switch, by running past the last
instruction, or by an access that the language or the machine does not allow. -/
inductive Exit
  | ret (value : BitVec 32)
  | return0
  | unknownCode
  | endOfProgram
  | outsideProgram
  | memIndex
  | divByZero
  | oops
  deriving Repr, DecidableEq

/-- What one instruction does: `continue` with a new state, or end the run. -/
inductive Next
  | goOn (s : State)
  | exit (e : Exit)

def Size.bytes : Size → ℕ
  | .w => 4
  | .h => 2
  | .b => 1

section
variable (pf : Platform) (skb : SkBuff)

def aluOp (op : AluOp) (a b : BitVec 32) : BitVec 32 :=
  match op with
  | .add => a + b
  | .sub => a - b
  | .mul => a * b
  | .div => a / b
  | .or => a ||| b
  | .and => a &&& b
  | .lsh => if b.toNat < 32 then a <<< b else pf.lshOver a b
  | .rsh => if b.toNat < 32 then a >>> b else pf.rshOver a b

def jmpOp (op : JmpOp) (a b : BitVec 32) : Bool :=
  match op with
  | .jeq => decide (a = b)
  | .jgt => decide (a > b)
  | .jge => decide (a ≥ b)
  | .jset => decide (a &&& b ≠ 0)

def operand (fentry : SockFilter) (s : State) : Src → BitVec 32
  | .k => fentry.k
  | .x => s.X

/-- The ancillary loads, for an offset at which `load_pointer` found nothing. -/
def ancillary (k : ℤ) (s : State) : Next :=
  if k - skfAdOff = skfAdProtocol then .goOn { s with A := skb.protocol.setWidth 32 }
  else if k - skfAdOff = skfAdPkttype then .goOn { s with A := skb.pktType.setWidth 32 }
  else if k - skfAdOff = skfAdIfindex then
    match skb.dev with
    | none => .exit .oops
    | some ifindex => .goOn { s with A := ifindex }
  else if k - skfAdOff = skfAdNlattr then
    if skb.dataLen ≠ 0 then .exit .return0
    else if (s.A.toNat : ℤ) > ((skb.len.toNat : ℤ) - sizeofNlattr) % 2 ^ pf.bitsPerLong then
      .exit .return0
    else
      match nlaFind pf skb.memory (skb.data + s.A.toNat) (skb.len - s.A).toInt s.X.toInt with
      | none => .exit .oops
      | some none => .goOn { s with A := 0 }
      | some (some nla) => .goOn { s with A := BitVec.ofInt 32 (nla - skb.data) }
  else .exit .return0

/-- The code at `load_w`, `load_h` and `load_b`. -/
def load (size : Size) (k : ℤ) (s : State) : Next :=
  match loadBytes skb k size.bytes with
  | none => .exit .oops
  | some none => ancillary pf skb k s
  | some (some bytes) => .goOn { s with A := beValue bytes }

/-- The switch of `sk_run_filter`. -/
def execInsn (fentry : SockFilter) (s : State) : Next :=
  match decode fentry.code with
  | some (.alu .div .x) =>
    if s.X = 0 then .exit .return0 else .goOn { s with A := aluOp pf .div s.A s.X }
  | some (.alu .div .k) =>
    if fentry.k = 0 then .exit .divByZero else .goOn { s with A := aluOp pf .div s.A fentry.k }
  | some (.alu op src) => .goOn { s with A := aluOp pf op s.A (operand fentry s src) }
  | some .neg => .goOn { s with A := -s.A }
  | some .ja => .goOn { s with pc := s.pc + fentry.k }
  | some (.jmp op src) =>
    .goOn { s with
      pc := s.pc +
        (if jmpOp op s.A (operand fentry s src) then fentry.jt else fentry.jf).setWidth 32 }
  | some (.ldAbs size) => load pf skb size fentry.k.toInt s
  | some (.ldInd size) => load pf skb size (s.X + fentry.k).toInt s
  | some .ldLen => .goOn { s with A := skb.len }
  | some .ldxLen => .goOn { s with X := skb.len }
  | some .ldxMsh =>
    match loadBytes skb fentry.k.toInt 1 with
    | none => .exit .oops
    | some none => .exit .return0
    | some (some bytes) => .goOn { s with X := (beValue bytes &&& 0xf) <<< 2 }
  | some .ldImm => .goOn { s with A := fentry.k }
  | some .ldxImm => .goOn { s with X := fentry.k }
  | some .ldMem =>
    if h : fentry.k.toNat < bpfMemwords then .goOn { s with A := s.mem ⟨fentry.k.toNat, h⟩ }
    else .exit .memIndex
  | some .ldxMem =>
    if h : fentry.k.toNat < bpfMemwords then .goOn { s with X := s.mem ⟨fentry.k.toNat, h⟩ }
    else .exit .memIndex
  | some .tax => .goOn { s with X := s.A }
  | some .txa => .goOn { s with A := s.X }
  | some .retK => .exit (.ret fentry.k)
  | some .retA => .exit (.ret s.A)
  | some .st =>
    if h : fentry.k.toNat < bpfMemwords then
      .goOn { s with mem := Function.update s.mem ⟨fentry.k.toNat, h⟩ s.A }
    else .exit .memIndex
  | some .stx =>
    if h : fentry.k.toNat < bpfMemwords then
      .goOn { s with mem := Function.update s.mem ⟨fentry.k.toNat, h⟩ s.X }
    else .exit .memIndex
  | none => .exit .unknownCode

end

/-- `filter[pc]`. -/
def fetch (filter : List SockFilter) (pc : BitVec 32) : Option SockFilter :=
  if 0 ≤ pc.toInt then filter[pc.toNat]? else none

/-- The states in which a run executed its instructions, and how it ended, if it
did within the given number of rounds. -/
structure RunResult where
  executed : List State
  exit : Option Exit

/-- The loop of `sk_run_filter`. -/
def runLoop (pf : Platform) (skb : SkBuff) (filter : List SockFilter) : ℕ → State → RunResult
  | 0, _ => ⟨[], none⟩
  | fuel + 1, s =>
    if s.pc.toInt < filter.length then
      match fetch filter s.pc with
      | none => ⟨[], some .outsideProgram⟩
      | some fentry =>
        match execInsn pf skb fentry s with
        | .exit e => ⟨[s], some e⟩
        | .goOn s' =>
          let r := runLoop pf skb filter fuel { s' with pc := s'.pc + 1 }
          ⟨s :: r.executed, r.exit⟩
    else ⟨[], some .endOfProgram⟩

/-- `sk_run_filter`, with the contents `mem` of the scratch words on its stack. -/
def skRunFilter (pf : Platform) (skb : SkBuff) (filter : List SockFilter)
    (mem : Fin bpfMemwords → BitVec 32) (fuel : ℕ) : RunResult :=
  runLoop pf skb filter fuel ⟨0, 0, mem, 0⟩

end Interpreter

end BooxKernel.Bpf

import Xzero.Flow.Vm.Runner

/-!
# Operations of the intermediate representation

The instruction classes of `xzero-flow/ir/Instructions.h` that compute a value from one or two
operands, on numbers, booleans and strings, and the constants of `ConstantValue.h` that can be their
operands. `UnaryOp.eval` and `BinaryOp.eval` say what the operations are for: arithmetic on 64-bit
two's complement, logic on booleans, and on strings concatenation, the order by bytes and the search
for a part.
-/

namespace Xzero.Flow

open Xzero.Util Vm

inductive FlowType
  | void
  | boolean
  | number
  | string
  | ipAddress
  | cidr
  | regExp
  | handler
  | intArray
  | stringArray
  | ipAddrArray
  | cidrArray
  deriving DecidableEq, Repr

namespace Ir

/-- The constants that numbers, booleans and strings have. -/
inductive Constant
  | int (n : Word)
  | boolean (b : Bool)
  | string (s : Bytes)
  deriving DecidableEq, Repr

namespace Constant

def type : Constant → FlowType
  | int _ => .number
  | boolean _ => .boolean
  | string _ => .string

/-- What a register holds after the constant was loaded into it. -/
def datum : Constant → Datum
  | int n => .word n
  | boolean b => .ofBool b
  | string s => .string s

end Constant

/-- A value: a constant or the result of an instruction. -/
inductive Value
  | const (c : Constant)
  | instr (id : ℕ) (type : FlowType)
  deriving DecidableEq, Repr

def Value.type : Value → FlowType
  | const c => c.type
  | instr _ type => type

/-- The values that instructions have computed. -/
abbrev Env := ℕ → Datum

def Value.datum (ρ : Env) : Value → Datum
  | const c => c.datum
  | instr id _ => ρ id

/-! ### Comparisons -/

/-- The comparisons of strings. -/
inductive StrCmp
  | eq
  | ne
  | le
  | ge
  | lt
  | gt
  deriving DecidableEq, Repr

/-- Strings compare by their bytes, the first difference deciding. -/
def StrCmp.eval : StrCmp → Bytes → Bytes → Bool
  | eq, x, y => decide (x = y)
  | ne, x, y => decide (x ≠ y)
  | le, x, y => decide (x ≤ y)
  | ge, x, y => decide (y ≤ x)
  | lt, x, y => decide (x < y)
  | gt, x, y => decide (y < x)

/-! ### Operations -/

/-- The instructions with one operand. -/
inductive UnaryOp
  /-- `INegInstr` -/
  | ineg
  /-- `INotInstr` -/
  | inot
  /-- `BNotInstr` -/
  | bnot
  /-- `SLenInstr` -/
  | slen
  /-- `SIsEmptyInstr` -/
  | sisempty
  /-- `CastInstr` to a string -/
  | toStr
  /-- `CastInstr` to a number -/
  | toNumber
  deriving DecidableEq, Repr

/-- The instructions with two operands. -/
inductive BinaryOp
  /-- `IAddInstr`, …, `ICmpGTInstr` -/
  | num (op : NumOp)
  /-- `BAndInstr` -/
  | band
  /-- `BOrInstr` -/
  | bor
  /-- `BXorInstr` -/
  | bxor
  /-- `SAddInstr` -/
  | sadd
  /-- `SCmpEQInstr`, …, `SCmpGTInstr` -/
  | scmp (op : StrCmp)
  /-- `SCmpBegInstr` -/
  | scmpBeg
  /-- `SCmpEndInstr` -/
  | scmpEnd
  /-- `SInInstr` -/
  | sin
  deriving DecidableEq, Repr

/-- `"true"` -/
def trueText : Bytes := [116, 114, 117, 101]

/-- `"false"` -/
def falseText : Bytes := [102, 97, 108, 115, 101]

namespace UnaryOp

/-- What the operation computes from a value of a type. -/
def eval : UnaryOp → FlowType → Datum → Option Datum
  | ineg, .number, .word x => some (.word (-x))
  | inot, .number, .word x => some (.word (~~~x))
  | bnot, .boolean, .word x => some (.ofBool (decide (x = 0)))
  | slen, .string, .string s => some (.word (BitVec.ofNat 64 s.length))
  | sisempty, .string, .string s => some (.ofBool s.isEmpty)
  | toStr, .number, .word x => some (.string (StringUtil.decimal x.toInt))
  | toStr, .boolean, .word x => some (.string (if x ≠ 0 then trueText else falseText))
  | toStr, .string, .string s => some (.string s)
  | toNumber, .string, .string s => some (.word ((Buffer.toInt s).signExtend 64))
  | toNumber, .number, .word x => some (.word x)
  | _, _, _ => none

end UnaryOp

namespace BinaryOp

/-- What the operation computes from its left and its right operand. -/
def eval : BinaryOp → Datum → Datum → Option Datum
  | num op, .word x, .word y => (op.eval x y).map .word
  | band, .word x, .word y => some (.ofBool (decide (x ≠ 0 ∧ y ≠ 0)))
  | bor, .word x, .word y => some (.ofBool (decide (x ≠ 0 ∨ y ≠ 0)))
  | bxor, .word x, .word y => some (.ofBool (decide (x ≠ 0) ^^ decide (y ≠ 0)))
  | sadd, .string x, .string y => some (.string (x ++ y))
  | scmp op, .string x, .string y => some (.ofBool (op.eval x y))
  | scmpBeg, .string x, .string y => some (.ofBool (decide (y <+: x)))
  | scmpEnd, .string x, .string y => some (.ofBool (decide (y <:+ x)))
  | sin, .string x, .string y => some (.ofBool (decide (x <:+: y)))
  | _, _, _ => none

/-- The type of an operation's operands. -/
def operandType : BinaryOp → FlowType
  | num _ => .number
  | band | bor | bxor => .boolean
  | sadd | scmp _ | scmpBeg | scmpEnd | sin => .string

end BinaryOp

/-- A register holds a value of a type: a boolean is `0` or `1`. -/
def HasType : FlowType → Datum → Prop
  | .number, .word _ => True
  | .boolean, .word w => w = 0 ∨ w = 1
  | .string, .string _ => True
  | _, _ => False

theorem hasType_number {v : Datum} (h : HasType .number v) : ∃ w, v = .word w := by
  rcases v with w | s
  · exact ⟨w, rfl⟩
  · exact h.elim

theorem hasType_boolean_iff (v : Datum) : HasType .boolean v ↔ ∃ b, v = .ofBool b := by
  constructor
  · intro h
    rcases v with w | s
    · rcases h with rfl | rfl
      · exact ⟨false, rfl⟩
      · exact ⟨true, rfl⟩
    · exact h.elim
  · rintro ⟨b, rfl⟩
    cases b
    · exact Or.inl rfl
    · exact Or.inr rfl

theorem datum_ofBool_inj {a b : Bool} : Datum.ofBool a = Datum.ofBool b ↔ a = b := by
  rw [Datum.ofBool, Datum.ofBool, Datum.word.injEq, Word.ofBool_inj]

theorem hasType_string_iff (v : Datum) : HasType .string v ↔ ∃ s, v = .string s := by
  rcases v with w | s
  · exact ⟨False.elim, nofun⟩
  · exact ⟨fun _ ↦ ⟨s, rfl⟩, fun _ ↦ trivial⟩

/-! ### The machine's instruction for an operation -/

/-- The instruction on two registers. -/
def rr : NumOp → Opcode
  | .add => .nadd
  | .sub => .nsub
  | .mul => .nmul
  | .div => .ndiv
  | .rem => .nrem
  | .shl => .nshl
  | .shr => .nshr
  | .pow => .npow
  | .and => .nand
  | .or => .nor
  | .xor => .nxor
  | .cmpEQ => .ncmpeq
  | .cmpNE => .ncmpne
  | .cmpLE => .ncmple
  | .cmpGE => .ncmpge
  | .cmpLT => .ncmplt
  | .cmpGT => .ncmpgt

/-- The instruction on a register and an immediate. -/
def ri : NumOp → Opcode
  | .add => .niadd
  | .sub => .nisub
  | .mul => .nimul
  | .div => .nidiv
  | .rem => .nirem
  | .shl => .nishl
  | .shr => .nishr
  | .pow => .nipow
  | .and => .niand
  | .or => .nior
  | .xor => .nixor
  | .cmpEQ => .nicmpeq
  | .cmpNE => .nicmpne
  | .cmpLE => .nicmple
  | .cmpGE => .nicmpge
  | .cmpLT => .nicmplt
  | .cmpGT => .nicmpgt

/-- The machine's instruction for an operation with two operands. -/
def BinaryOp.opcode : BinaryOp → Opcode
  | num op => rr op
  | band => .band
  | bor => .bor
  | bxor => .bxor
  | sadd => .sadd
  | scmp .eq => .scmpeq
  | scmp .ne => .scmpne
  | scmp .le => .scmple
  | scmp .ge => .scmpge
  | scmp .lt => .scmplt
  | scmp .gt => .scmpgt
  | scmpBeg => .scmpbeg
  | scmpEnd => .scmpend
  | sin => .scontains

/-- What the machine computes for an operation on two registers. -/
def BinaryOp.vm (op : BinaryOp) (x y : Datum) : Option Datum :=
  Runner.result ⟨[], []⟩ (fun r ↦ if r = 0 then x else y) 0 1 op.opcode

section Machine

variable {pool : ConstantPool} {data : Runner.Data} {b c : ℕ}

theorem result_opcode (op : BinaryOp) :
    Runner.result pool data b c op.opcode = op.vm (data b) (data c) := by
  rcases op with op | - | - | - | - | op | - | - | -
  · cases op <;> rfl
  · rfl
  · rfl
  · rfl
  · rfl
  · cases op <;> rfl
  · rfl
  · rfl
  · rfl

theorem result_ri (op : NumOp) :
    Runner.result pool data b c (ri op) = Runner.immediate data b c op := by
  cases op <;> rfl

end Machine

/-! ### What the machine makes of the operations -/

section Machine

variable (x y : Word) (s t : Bytes)

/-- **On numbers the machine's instructions are the operations.** -/
@[simp] theorem vm_num (op : NumOp) :
    (BinaryOp.num op).vm (.word x) (.word y) = (op.eval x y).map .word := by
  cases op <;> rfl

@[simp] theorem vm_sadd : BinaryOp.sadd.vm (.string s) (.string t) = some (.string (s ++ t)) := rfl

/-- The machine's comparison of two strings. -/
def StrCmp.vm : StrCmp → Bytes → Bytes → Bool
  | eq, x, y => Buffer.equals x y
  | ne, x, y => !Buffer.equals x y
  | le, x, y => Buffer.lessOrEqual x y
  | ge, x, y => Buffer.greaterOrEqual x y
  | lt, x, y => Buffer.less x y
  | gt, x, y => Buffer.greater x y

@[simp] theorem vm_scmp (op : StrCmp) :
    (BinaryOp.scmp op).vm (.string s) (.string t) = some (.ofBool (op.vm s t)) := by
  cases op <;> rfl

@[simp] theorem vm_scmpBeg :
    BinaryOp.scmpBeg.vm (.string s) (.string t) = some (.ofBool (Buffer.beginsWith s t)) := rfl

@[simp] theorem vm_scmpEnd :
    BinaryOp.scmpEnd.vm (.string s) (.string t) = some (.ofBool (Buffer.endsWith s t)) := rfl

@[simp] theorem vm_sin :
    BinaryOp.sin.vm (.string s) (.string t) = some (.ofBool (Buffer.find t s).isSome) := rfl

end Machine

/-! ### The order of strings -/

namespace StrCmp

/-- Two strings the machine compares by being empty as their bytes compare. -/
def Kept : StrCmp → Bytes → Bytes → Prop
  | eq, _, _ | ne, _, _ => True
  | le, a, b | gt, a, b => a = [] ∨ b = [] ∨ a ≤ b
  | ge, a, b | lt, a, b => b = [] ∨ a = [] ∨ b ≤ a

theorem lessOrEqual_eq_iff {a b : Bytes} :
    Buffer.lessOrEqual a b = decide (a ≤ b) ↔ a = [] ∨ b = [] ∨ a ≤ b := by
  rcases a with - | ⟨h, t⟩
  · simp [Buffer.lessOrEqual, Buffer.toBool]
  · rcases b with - | ⟨h', t'⟩
    · simp [Buffer.lessOrEqual, Buffer.toBool]
    · simp [Buffer.lessOrEqual, Buffer.toBool]

theorem vm_lt (a b : Bytes) : lt.vm a b = !le.vm b a := by
  simp [vm, Buffer.less, Buffer.lessOrEqual, ← decide_not]

theorem vm_gt (a b : Bytes) : gt.vm a b = !le.vm a b := by
  simp [vm, Buffer.greater, Buffer.lessOrEqual, ← decide_not]

theorem eval_lt (a b : Bytes) : lt.eval a b = !le.eval b a := by
  simp [eval, ← decide_not]

theorem eval_gt (a b : Bytes) : gt.eval a b = !le.eval a b := by
  simp [eval, ← decide_not]

/-- **The machine compares two strings as their bytes compare exactly if they are `Kept`.** -/
theorem vm_eq_eval_iff (op : StrCmp) {a b : Bytes} : op.vm a b = op.eval a b ↔ op.Kept a b := by
  cases op with
  | eq => exact iff_of_true (Buffer.equals_eq a b) trivial
  | ne =>
    refine iff_of_true ?_ trivial
    rw [vm, eval, Buffer.equals_eq, decide_not]
  | le => exact lessOrEqual_eq_iff
  | ge => exact lessOrEqual_eq_iff
  | lt =>
    rw [vm_lt, eval_lt, Bool.not_inj_iff]
    exact lessOrEqual_eq_iff
  | gt =>
    rw [vm_gt, eval_gt, Bool.not_inj_iff]
    exact lessOrEqual_eq_iff

end StrCmp

/-! ### Instructions with their operands -/

/-- The types an operation with one operand is for. -/
def UnaryOp.Accepts : UnaryOp → FlowType → Prop
  | .ineg, type | .inot, type => type = .number
  | .bnot, type => type = .boolean
  | .slen, type | .sisempty, type => type = .string
  | .toStr, type => type = .number ∨ type = .boolean ∨ type = .string
  | .toNumber, type => type = .number ∨ type = .string

/-- The machine's instruction for an operation with one operand, if there is one. -/
def UnaryOp.opcode : UnaryOp → FlowType → Option Opcode
  | ineg, _ => some .nneg
  | inot, _ => some .nnot
  | bnot, _ => some .bnot
  | slen, _ => some .slen
  | sisempty, _ => some .sisempty
  | toStr, .number => some .i2s
  | toStr, .ipAddress => some .p2s
  | toStr, .cidr => some .c2s
  | toStr, .regExp => some .r2s
  | toNumber, .string => some .s2i
  | _, _ => none

/-- What the machine computes for an operation on one register. -/
def UnaryOp.vm (op : UnaryOp) (type : FlowType) (x : Datum) : Option Datum :=
  op.opcode type >>= Runner.result ⟨[], []⟩ (fun _ ↦ x) 0 0

end Ir

open Ir

/-- An instruction that computes a value. -/
inductive Computation
  | unary (op : UnaryOp) (x : Value)
  | binary (op : BinaryOp) (x y : Value)
  deriving DecidableEq, Repr

namespace Computation

/-- The operands have the types the operation is for. -/
def WellTyped : Computation → Prop
  | unary op x => op.Accepts x.type
  | binary op x y => x.type = op.operandType ∧ y.type = op.operandType

/-- The operands' registers hold values of their types. -/
def Typed (ρ : Env) : Computation → Prop
  | unary _ x => HasType x.type (x.datum ρ)
  | binary _ x y => HasType x.type (x.datum ρ) ∧ HasType y.type (y.datum ρ)

/-- The operation applied to its operands in their order. -/
def eval (ρ : Env) : Computation → Option Datum
  | unary op x => op.eval x.type (x.datum ρ)
  | binary op x y => op.eval (x.datum ρ) (y.datum ρ)

/-- What the machine computes for the operation on the operands' values. -/
def vm (ρ : Env) : Computation → Option Datum
  | unary op x => op.vm x.type (x.datum ρ)
  | binary op x y => op.vm (x.datum ρ) (y.datum ρ)

end Computation

end Xzero.Flow

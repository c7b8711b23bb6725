import Xzero.Flow.Ir.Operation

/-!
# Expressions

What `xzero-flow/FlowParser.cc` makes of operators, casts and strings with embedded expressions, and
the nodes of `AST.h` it makes it of. An operator token and the types of its operands decide on an
opcode (`makeOperator`), with which a node is built; a string with embedded expressions is a chain
of additions (`interpolatedStr`).

Variables stand for everything that has its value in a register, results of native functions
included. Lists, networks and regular expressions are left out.
-/

namespace Xzero.Flow

open Vm Util

/-- The operators and the type names among the tokens. -/
inductive FlowToken
  | plus | minus | mul | div | mod | pow | shl | shr
  | bitAnd | bitOr | bitXor | bitNot
  | and | or | xor | not
  | equal | unEqual | lessOrEqual | greaterOrEqual | less | greater
  | prefixMatch | suffixMatch | regexMatch | isIn
  | boolType | numberType | stringType
  deriving DecidableEq, Repr

/-- `OpSig`, with the signatures of numbers, booleans and strings. -/
inductive OpSig
  | boolBool
  | numNum
  | stringString
  | invalid
  deriving DecidableEq, Repr

namespace OpSig

def of : FlowType → FlowType → OpSig
  | .boolean, .boolean => boolBool
  | .number, .number => numNum
  | .string, .string => stringString
  | _, _ => invalid

/-- The table of `makeOperator(token, left, right)`; a token that is missing is `EXIT`. -/
def operator : OpSig → FlowToken → Opcode
  | boolBool, .equal => .ncmpeq
  | boolBool, .unEqual => .ncmpne
  | boolBool, .and => .band
  | boolBool, .or => .bor
  | boolBool, .xor => .bxor
  | numNum, .plus => .nadd
  | numNum, .minus => .nsub
  | numNum, .mul => .nmul
  | numNum, .div => .ndiv
  | numNum, .mod => .nrem
  | numNum, .pow => .npow
  | numNum, .shl => .nshl
  | numNum, .shr => .nshr
  | numNum, .bitAnd => .nand
  | numNum, .bitOr => .nor
  | numNum, .bitXor => .nxor
  | numNum, .equal => .ncmpeq
  | numNum, .unEqual => .ncmpne
  | numNum, .lessOrEqual => .ncmplt
  | numNum, .greaterOrEqual => .ncmpgt
  | numNum, .less => .ncmple
  | numNum, .greater => .ncmpge
  | stringString, .plus => .sadd
  | stringString, .equal => .scmpeq
  | stringString, .unEqual => .scmpne
  | stringString, .lessOrEqual => .scmple
  | stringString, .greaterOrEqual => .scmpge
  | stringString, .less => .scmplt
  | stringString, .greater => .scmpgt
  | stringString, .prefixMatch => .scmpbeg
  | stringString, .suffixMatch => .scmpend
  | stringString, .isIn => .scontains
  | _, _ => .exit

end OpSig

def makeOperator (token : FlowToken) (left right : FlowType) : Opcode :=
  (OpSig.of left right).operator token

/-- `makeOperator(target, source)`. -/
def makeCast : FlowToken → FlowType → Opcode
  | .not, .number => .ncmpz
  | .bitNot, .number => .nnot
  | .minus, .number => .nneg
  | .stringType, .number => .i2s
  | .boolType, .number => .ncmpz
  | .numberType, .number => .nop
  | .not, .boolean => .bnot
  | .boolType, .boolean => .nop
  | .stringType, .boolean => .i2s
  | .not, .string => .sisempty
  | .numberType, .string => .s2i
  | .stringType, .string => .nop
  | .stringType, .ipAddress => .p2s
  | .stringType, .cidr => .c2s
  | .stringType, .regExp => .r2s
  | _, _ => .exit

/-- `vm::resultType`, for the opcodes that a node can have. -/
def resultType : Opcode → FlowType
  | .nneg | .nnot | .nadd | .nsub | .nmul | .ndiv | .nrem | .nshl | .nshr | .npow | .nand | .nor
  | .nxor | .slen | .s2i => .number
  | .ncmpz | .ncmpeq | .ncmpne | .ncmple | .ncmpge | .ncmplt | .ncmpgt | .bnot | .band | .bor
  | .bxor | .scmpeq | .scmpne | .scmple | .scmpge | .scmplt | .scmpgt | .scmpbeg | .scmpend
  | .scontains | .sisempty => .boolean
  | .sadd | .i2s | .p2s | .c2s | .r2s => .string
  | _ => .void

/-- An expression. -/
inductive Expr
  /-- `NumberExpr` -/
  | number (n : Word)
  /-- `StringExpr` -/
  | string (s : Bytes)
  /-- `BoolExpr` -/
  | boolean (b : Bool)
  /-- `VariableExpr` -/
  | var (id : ℕ) (type : FlowType)
  /-- `UnaryExpr` -/
  | unary (op : Opcode) (subExpr : Expr)
  /-- `BinaryExpr` -/
  | binary (op : Opcode) (leftExpr rightExpr : Expr)
  deriving DecidableEq, Repr

namespace Expr

/-- `getType`. -/
def type : Expr → FlowType
  | number _ => .number
  | string _ => .string
  | boolean _ => .boolean
  | var _ type => type
  | unary op _ => resultType op
  | binary op _ _ => resultType op

end Expr

/-! ### The parser's nodes -/

/-- What `logicExpr`, `relExpr`, `addExpr`, `mulExpr` and `powExpr` do with an operator and its two
operands; `none` is a type error. -/
def binaryExpr (token : FlowToken) (lhs rhs : Expr) : Option Expr :=
  match makeOperator token lhs.type rhs.type with
  | .exit => none
  | opc => some (.binary opc lhs rhs)

/-- What `notExpr`, `negExpr` and `bitNotExpr` do with an operand. -/
def unaryExpr (token : FlowToken) (e : Expr) : Option Expr :=
  match makeCast token e.type with
  | .exit => none
  | opc => some (.unary opc e)

/-- `castExpr`: a cast that does nothing makes no node. -/
def castExpr (target : FlowToken) (e : Expr) : Option Expr :=
  match makeCast target e.type with
  | .exit => none
  | .nop => some e
  | opc => some (.unary opc e)

def asString (e : Expr) : Option Expr :=
  if e.type = .string then some e
  else match makeCast .stringType e.type with
    | .exit => none
    | opc => some (.unary opc e)

/-- The loop of `interpolatedStr`: expressions, each with the text that follows it. The text after
the last expression is added unless it is empty. -/
def interpolatedStr (result : Expr) : List (Expr × Bytes) → Option Expr
  | [] => none
  | [(e, last)] => do
    let e ← asString e
    let result := .binary .sadd result e
    return if last.isEmpty then result else .binary .sadd result (.string last)
  | (e, fragment) :: rest => do
    let e ← asString e
    let result := .binary .sadd result e
    interpolatedStr (.binary .sadd result (.string fragment)) rest

/-- A string in double quotes: the first text, and the expressions with the text after each. -/
def stringExpr (first : Bytes) : List (Expr × Bytes) → Option Expr
  | [] => some (.string first)
  | parts => interpolatedStr (.string first) parts

end Xzero.Flow

import Xzero.Flow.Ir.Handler
import Xzero.Library.Transition

/-!
# Edits of a handler

A handler is edited through the members of its blocks and instructions. Each edit keeps the lists of
successors and predecessors up to date on its own: `push_back` and `remove` go through the operands
of a terminator, `setOperand` and `addOperand` look at the operand alone, whatever the instruction.
Here the edits are steps on a `Handler`, in any order. A step is undefined (`none`) where the source
is: an assertion does not hold, an index is out of range, or a block no longer exists.

The runs are those of `edits`; `Admits` says where instructions may be appended and blocks erased,
and `Tidy` that blocks are given to terminators only.
-/

namespace Xzero.Flow.Ir

open Function

/-- The first operands of an instruction, as many as its constructor takes. -/
def Instr.front (i : Instr) (n : ℕ) : Option (List Operand) :=
  if n ≤ i.operands.length then some (i.operands.take n) else none

/-- `clone`: the operands of the copy. Each class hands to its constructor the operands that it
knows, and some constructors ask the first one for its type. -/
def Instr.clone (i : Instr) : Option (List Operand) :=
  match i.kind with
  | .nop => some []
  | .alloca _ | .cast _ | .unary _ | .br | .ret => i.front 1
  | .load => if i.operands.head? = some .null then none else i.front 1
  | .binary _ => i.front 2
  | .store | .condBr => i.front 3
  | .call =>
    match i.operands with
    | .builtin _ :: _ => some i.operands
    | _ => none
  | .phi =>
    match i.operands with
    | [] | .null :: _ => none
    | _ => some i.operands
  | .handlerCall | .matchOn _ => some i.operands

/-- One instruction for another, as an operand. -/
def Operand.rename (old new : ℕ) (o : Operand) : Operand := if o = .instr old then .instr new else o

/-- One instruction for another, in the operands of an instruction. -/
def Instr.rename (old new : ℕ) (i : Instr) : Instr :=
  { i with operands := i.operands.map (.rename old new) }

/-- The instruction is a terminator, or has no block among its operands. -/
def Instr.Plain (i : Instr) : Prop := i.kind.isTerminator = true ∨ i.targets = []

namespace Handler

/-- The instruction with this number in the block. -/
def find (h : Handler) (b id : ℕ) : Option Instr := (h.code b).find? fun i ↦ i.id = id

/-- The instruction is in one of the blocks: its `parent` is set. -/
def hasParent (h : Handler) (id : ℕ) : Bool := h.blocks.any fun b ↦ (h.find b id).isSome

/-- The block is linked to the other one, in both lists: what `unlinkSuccessor` asserts. -/
def Links (h : Handler) (b successor : ℕ) : Prop :=
  b ∈ h.predecessors successor ∧ successor ∈ h.successors b

instance (h : Handler) (b successor : ℕ) : Decidable (h.Links b successor) :=
  inferInstanceAs (Decidable (_ ∧ _))

/-- `unlinkSuccessor` for one block after the other, with its assertions. -/
def tryUnlinkAll (h : Handler) (b : ℕ) : List ℕ → Option Handler
  | [] => some h
  | t :: ts => if h.Links b t then (h.unlinkSuccessor b t).tryUnlinkAll b ts else none

def Exists (h : Handler) (o : Operand) : Prop := ∀ t ∈ o.toBlock, t ∈ h.blocks

instance (h : Handler) (o : Operand) : Decidable (h.Exists o) :=
  inferInstanceAs (Decidable (∀ t ∈ o.toBlock, t ∈ h.blocks))

def createBlock (h : Handler) (b : ℕ) : Option Handler :=
  if b ∈ h.blocks then none
  else some { h with
    blocks := h.blocks ++ [b]
    code := update h.code b []
    predecessors := update h.predecessors b []
    successors := update h.successors b [] }

/-- `push_back`. -/
def tryPushBack (h : Handler) (b : ℕ) (i : Instr) : Option Handler :=
  if b ∈ h.blocks ∧ i.id < h.next ∧ h.hasParent i.id = false ∧ ∀ o ∈ i.operands, h.Exists o then
    some (h.pushBack b i)
  else none

/-- `merge_back`: the loop over the code of the other block. -/
def pushClones (h : Handler) (b : ℕ) : List Instr → Option Handler
  | [] => some h
  | i :: is =>
    match i.clone with
    | some operands => (h.pushNew b i.kind operands).pushClones b is
    | none => none

/-- `merge_back`. With the same block, the loop would go through the list it appends to. -/
def tryMergeBack (h : Handler) (b bb : ℕ) : Option Handler :=
  if b ∈ h.blocks ∧ bb ∈ h.blocks ∧ b ≠ bb then h.pushClones b (h.code bb) else none

/-- `remove`. -/
def tryRemove (h : Handler) (b id : ℕ) : Option Handler :=
  match h.find b id with
  | some i =>
    if h.getTerminator b = some i then
      if (h.tryUnlinkAll b i.targets).isSome then some (h.remove b i) else none
    else some (h.remove b i)
  | none => none

/-- `replaceAllUsesWith`, for an instruction: there are no links to change. -/
def replaceAllUsesWith (h : Handler) (old new : ℕ) : Handler :=
  { h with code := fun b ↦ (h.code b).map (.rename old new) }

/-- `BasicBlock::replace`. -/
def tryReplace (h : Handler) (b old : ℕ) (new : Instr) : Option Handler :=
  if (h.find b old).isSome ∧ h.hasParent new.id = false ∧ new.id < h.next ∧
      ∀ o ∈ new.operands, h.Exists o then
    let h := h.replaceAllUsesWith old new.id
    let new := .rename old new.id new
    if (h.getTerminator b).map Instr.id = some old then
      (h.tryRemove b old).bind fun h ↦ h.tryPushBack b new
    else if new.kind.isTerminator then none
    else
      let is := (h.code b).map fun i ↦ if i.id = old then new else i
      some { h with code := update h.code b is }
  else none

/-- `setOperand`, of an instruction in a block. -/
def trySetOperand (h : Handler) (b id k : ℕ) (value : Operand) : Option Handler :=
  match h.find b id with
  | some i =>
    match i.operands[k]? with
    | some old =>
      if (∀ t ∈ old.toBlock, h.Links b t) ∧ h.Exists value then some (h.setOperand b i k value)
      else none
    | none => none
  | none => none

/-- The loop of `replaceOperand`. -/
def replaceFrom (h : Handler) (b id : ℕ) (old replacement : Operand) : List ℕ → Option Handler
  | [] => some h
  | k :: ks =>
    if (h.find b id).bind (fun i ↦ i.operands[k]?) = some old then
      (h.trySetOperand b id k replacement).bind fun h ↦ h.replaceFrom b id old replacement ks
    else h.replaceFrom b id old replacement ks

/-- `replaceOperand`, of an instruction in a block. -/
def tryReplaceOperand (h : Handler) (b id : ℕ) (old replacement : Operand) : Option Handler :=
  match h.find b id with
  | some i => h.replaceFrom b id old replacement (List.range i.operands.length)
  | none => none

/-- An instruction with other operands. -/
def setOperands (h : Handler) (b id : ℕ) (operands : List Operand) : Handler :=
  let is := (h.code b).map fun i ↦ if i.id = id then { i with operands := operands } else i
  { h with code := update h.code b is }

/-- `addOperand`, of an instruction in a block. -/
def tryAddOperand (h : Handler) (b id : ℕ) (value : Operand) : Option Handler :=
  match h.find b id with
  | some i =>
    if value ≠ .null ∧ h.Exists value then
      let h := h.setOperands b id (i.operands ++ [value])
      some (h.linkAll b value.toBlock.toList)
    else none
  | none => none

/-- The loop of `clearOperands`. -/
def clearFrom (h : Handler) (b id : ℕ) : List ℕ → Option Handler
  | [] => some h
  | k :: ks => (h.trySetOperand b id k .null).bind fun h ↦ h.clearFrom b id ks

/-- `clearOperands`, of an instruction in a block. -/
def tryClearOperands (h : Handler) (b id : ℕ) : Option Handler :=
  match h.find b id with
  | some i =>
    (h.clearFrom b id (List.range i.operands.length)).map fun h ↦ h.setOperands b id []
  | none => none

/-- The destructors of the instructions of a block, which unlink the blocks among the operands of
every instruction. -/
def destroy (h : Handler) (b : ℕ) : List Instr → Option Handler
  | [] => some h
  | i :: is => (h.tryUnlinkAll b i.targets).bind fun h ↦ h.destroy b is

/-- `IRHandler::erase`. The terminator is that of a block with code. The destructor of the block
goes through the links that are left and changes them meanwhile: there must be none. -/
def tryErase (h : Handler) (bb : ℕ) : Option Handler :=
  if bb ∈ h.blocks ∧ h.code bb ≠ [] then
    (match h.getTerminator bb with
      | some terminator => h.tryRemove bb terminator.id
      | none => some h).bind fun h ↦
    (h.destroy bb (h.code bb).reverse).bind fun h ↦
    if h.predecessors bb = [] ∧ h.successors bb = [] then
      some { h with blocks := h.blocks.erase bb, code := update h.code bb [] }
    else none
  else none

end Handler

/-! ### Runs -/

/-- An edit. -/
inductive Edit
  /-- `createBlock` -/
  | createBlock (b : ℕ)
  | create
  | pushBack (b : ℕ) (i : Instr)
  | mergeBack (b bb : ℕ)
  | remove (b id : ℕ)
  | replace (b old : ℕ) (new : Instr)
  | setOperand (b id k : ℕ) (value : Operand)
  | replaceOperand (b id : ℕ) (old replacement : Operand)
  | addOperand (b id : ℕ) (value : Operand)
  | clearOperands (b id : ℕ)
  | erase (bb : ℕ)
  deriving DecidableEq, Repr

namespace Handler

/-- An edit of a handler. The operands of an instruction that is in no block are those it comes
with. -/
def edit (h : Handler) : Edit → Option Handler
  | .createBlock b => h.createBlock b
  | .create => some { h with next := h.next + 1 }
  | .pushBack b i => h.tryPushBack b i
  | .mergeBack b bb => h.tryMergeBack b bb
  | .remove b id => h.tryRemove b id
  | .replace b old new => h.tryReplace b old new
  | .setOperand b id k value => h.trySetOperand b id k value
  | .replaceOperand b id old replacement => h.tryReplaceOperand b id old replacement
  | .addOperand b id value => h.tryAddOperand b id value
  | .clearOperands b id => h.tryClearOperands b id
  | .erase bb => h.tryErase bb

/-- The handlers under edits, from one without blocks. -/
def edits : TransitionSystem Handler Edit where
  init := ⟨[], fun _ ↦ [], fun _ ↦ [], fun _ ↦ [], 0⟩
  step := edit

/-- Instructions are appended to blocks without terminator, and a block is erased that has no
predecessors. -/
def Admits (h : Handler) : Edit → Prop
  | .pushBack b _ | .mergeBack b _ => h.getTerminator b = none
  | .erase bb => h.predecessors bb = []
  | _ => True

/-- The operand is not a block, or it is for a terminator. -/
def Suits (h : Handler) (b id : ℕ) (value : Operand) : Prop :=
  value.toBlock = none ∨ ∃ i, h.find b id = some i ∧ i.kind.isTerminator = true

/-- Blocks are given to terminators only. -/
def Tidy (h : Handler) : Edit → Prop
  | .pushBack _ i => Instr.Plain i
  | .replace _ _ new => Instr.Plain new
  | .setOperand b id _ value | .addOperand b id value => h.Suits b id value
  | .replaceOperand b id _ replacement => h.Suits b id replacement
  | _ => True

end Handler

end Xzero.Flow.Ir

import Xzero.Flow.Ir.Operation

/-!
# Handlers

`xzero-flow/ir`: the graph of a handler (`IRHandler.cc`, `BasicBlock.cc`, `Instr.cc`). Blocks and
instructions are objects that refer to each other; here they are numbers, and a `Handler` is what is
stored for each block: its code, and the blocks before and after it. An instruction is in one block
at most and is stored there.

The functions that edit the graph are given as they are, with the links between blocks that they
keep up to date. They lead to a handler that is well formed again (`WellFormed`); **the links are
those of the terminators** (`Linked`).
-/

namespace Xzero.Flow.Ir

open Function List

inductive UnaryOperator
  | ineg | inot | bnot | slen | sisempty
  deriving DecidableEq, Repr

inductive BinaryOperator
  | iadd | isub | imul | idiv | irem | ipow | iand | ior | ixor | ishl | ishr
  | icmpeq | icmpne | icmple | icmpge | icmplt | icmpgt
  | band | bor | bxor
  | sadd | ssubstr | scmpeq | scmpne | scmple | scmpge | scmplt | scmpgt | scmpre | scmpbeg | scmpend
  | sin
  | pcmpeq | pcmpne | pincidr
  deriving DecidableEq, Repr

inductive MatchClass
  | same | head | tail | regExp
  deriving DecidableEq, Repr

/-- The class of an instruction, with the members that are not operands. -/
inductive Kind
  | nop
  | alloca (type : FlowType)
  | store
  | load
  | call
  | handlerCall
  | cast (type : FlowType)
  | unary (op : UnaryOperator)
  | binary (op : BinaryOperator)
  | phi
  | condBr
  | br
  | ret
  | matchOn (op : MatchClass)
  deriving DecidableEq, Repr

/-- The classes derived from `TerminateInstr`. -/
def Kind.isTerminator : Kind → Bool
  | condBr | br | ret | matchOn _ => true
  | _ => false

/-- A `Value*`, as an operand. -/
inductive Operand
  /-- A constant number, boolean or string -/
  | const (c : Constant)
  | builtin (id : ℕ)
  | other (id : ℕ)
  | instr (id : ℕ)
  | block (id : ℕ)
  | null
  deriving DecidableEq, Repr

namespace Operand

/-- `dynamic_cast<BasicBlock*>`. -/
def toBlock : Operand → Option ℕ
  | block b => some b
  | _ => none

end Operand

/-- An instruction. -/
structure Instr where
  id : ℕ
  kind : Kind
  /-- `operands_`. -/
  operands : List Operand
  deriving DecidableEq, Repr

def Instr.targets (i : Instr) : List ℕ := i.operands.filterMap Operand.toBlock

@[simp] theorem Instr.mem_targets {i : Instr} {b : ℕ} : b ∈ i.targets ↔ .block b ∈ i.operands := by
  constructor
  · intro h
    obtain ⟨o, ho, hb⟩ := mem_filterMap.1 h
    cases o with
    | block c =>
      cases hb
      exact ho
    | _ => cases hb
  · exact fun h ↦ mem_filterMap.2 ⟨_, h, rfl⟩

/-- A handler and its blocks. -/
structure Handler where
  /-- `blocks_`; the first one is the entry block. -/
  blocks : List ℕ
  /-- `code_` of each block. -/
  code : ℕ → List Instr
  /-- `predecessors_` of each block. -/
  predecessors : ℕ → List ℕ
  /-- `successors_` of each block. -/
  successors : ℕ → List ℕ
  next : ℕ

namespace Handler

/-- `getEntryBlock`. -/
def entry (h : Handler) : Option ℕ := h.blocks.head?

def getTerminator (h : Handler) (b : ℕ) : Option Instr :=
  (h.code b).getLast?.filter fun i ↦ i.kind.isTerminator

def linkSuccessor (h : Handler) (b successor : ℕ) : Handler :=
  { h with
    successors := update h.successors b (h.successors b ++ [successor])
    predecessors := update h.predecessors successor (h.predecessors successor ++ [b]) }

def unlinkSuccessor (h : Handler) (b successor : ℕ) : Handler :=
  { h with
    predecessors := update h.predecessors successor ((h.predecessors successor).erase b)
    successors := update h.successors b ((h.successors b).erase successor) }

/-- The loop of `push_back` over the operands of a terminator. -/
def linkAll (h : Handler) (b : ℕ) (ts : List ℕ) : Handler :=
  ts.foldl (fun h t ↦ h.linkSuccessor b t) h

/-- The loop of `remove` over the operands of a terminator. -/
def unlinkAll (h : Handler) (b : ℕ) (ts : List ℕ) : Handler :=
  ts.foldl (fun h t ↦ h.unlinkSuccessor b t) h

def remove (h : Handler) (b : ℕ) (i : Instr) : Handler :=
  let h := if h.getTerminator b = some i then h.unlinkAll b i.targets else h
  { h with code := update h.code b ((h.code b).erase i) }

def pushBack (h : Handler) (b : ℕ) (i : Instr) : Handler :=
  let h := { h with code := update h.code b (h.code b ++ [i]) }
  if i.kind.isTerminator then h.linkAll b i.targets else h

/-- `push_back` of a new instruction. -/
def pushNew (h : Handler) (b : ℕ) (kind : Kind) (operands : List Operand) : Handler :=
  { h with next := h.next + 1 }.pushBack b ⟨h.next, kind, operands⟩

/-- `merge_back`, with a block that is not the same one: copies of its instructions. -/
def mergeBack (h : Handler) (b bb : ℕ) : Handler :=
  (h.code bb).foldl (fun h i ↦ h.pushNew b i.kind i.operands) h

/-- `setOperand`, of an instruction of the block `b`. -/
def setOperand (h : Handler) (b : ℕ) (i : Instr) (k : ℕ) (value : Operand) : Handler :=
  let old := (h.code b).find? (fun j ↦ j.id = i.id) >>= fun j ↦ j.operands[k]?
  let h := { h with code := update h.code b ((h.code b).map fun j ↦
    if j.id = i.id then { j with operands := j.operands.set k value } else j) }
  let h := match old >>= Operand.toBlock with
    | some oldBB => h.unlinkSuccessor b oldBB
    | none => h
  match value.toBlock with
  | some newBB => h.linkSuccessor b newBB
  | none => h

/-- `replaceOperand`, of an instruction of the block `b`, with the number of replacements. -/
def replaceOperand (h : Handler) (b : ℕ) (i : Instr) (old replacement : Operand) : Handler × ℕ :=
  (range i.operands.length).foldl (fun r k ↦
    if i.operands[k]? = some old then (r.1.setOperand b i k replacement, r.2 + 1) else r) (h, 0)

/-- `setEntryBlock`, with a block of the handler. -/
def setEntryBlock (h : Handler) (bb : ℕ) : Handler := { h with blocks := bb :: h.blocks.erase bb }

/-- The loop that replaces a block in the terminators of its predecessors. It goes through the
predecessors of the block, and with each replacement one of these is taken away: the iterator is
then invalid, and going on with it is undefined. -/
def replaceInPredecessors (h : Handler) (bb replacement : ℕ) : List ℕ → Option Handler
  | [] => some h
  | pred :: preds =>
    match h.getTerminator pred with
    | some t =>
      let r := h.replaceOperand pred t (.block bb) (.block replacement)
      if r.2 = 0 then replaceInPredecessors r.1 bb replacement preds else none
    | none => none

/-- `erase`. The destructor goes through the links that are left and changes them meanwhile; what
comes of that is undefined, unless there are none. -/
def erase (h : Handler) (bb : ℕ) : Option Handler :=
  let h := { h with blocks := h.blocks.erase bb }
  let h := match h.getTerminator bb with
    | some terminator => h.remove bb terminator
    | none => h
  if h.predecessors bb = [] ∧ h.successors bb = [] then
    some { h with code := update h.code bb [] }
  else none

/-- `isAfter`: the other block comes directly after the block. -/
def isAfter (h : Handler) (b otherBB : ℕ) : Bool :=
  match (h.blocks.dropWhile (· ≠ b)) with
  | _ :: next :: _ => next = otherBB
  | _ => false

/-! ### Well-formed handlers -/

/-- The slots of a block's terminator that hold the other block. -/
def slots (h : Handler) (b t : ℕ) : ℕ :=
  ((h.getTerminator b).map fun i ↦ i.targets.count t).getD 0

/-- The number of links between two blocks, in the lists of both. -/
def LinkedBy (h : Handler) (d : ℕ → ℕ → ℕ) : Prop :=
  ∀ b t, (h.successors b).count t = d b t ∧ (h.predecessors t).count b = d b t

/-- The links of each block are those of its terminator. -/
def Linked (h : Handler) : Prop := h.LinkedBy h.slots

/-- The instruction is in one of the blocks. -/
def Contains (h : Handler) (id : ℕ) : Prop := ∃ b ∈ h.blocks, ∃ i ∈ h.code b, i.id = id

/-- The operand is a constant, an instruction in one of the blocks or one of the blocks. -/
def Refers (h : Handler) : Operand → Prop
  | .instr id => h.Contains id
  | .block b => b ∈ h.blocks
  | _ => True

/-- All blocks are terminated, and all operands are in the handler. -/
structure WellFormed (h : Handler) : Prop where
  nodup : h.blocks.Nodup
  ne_nil : h.blocks ≠ []
  code_eq_nil : ∀ b ∉ h.blocks, h.code b = []
  /-- A block ends with its terminator and has no other. -/
  terminated : ∀ b ∈ h.blocks, ∃ body t, h.code b = body ++ [t] ∧ t.kind.isTerminator = true ∧
    ∀ i ∈ body, i.kind.isTerminator = false
  unique : ∀ b b', ∀ i ∈ h.code b, ∀ i' ∈ h.code b', i.id = i'.id → b = b' ∧ i = i'
  nodup_code : ∀ b, (h.code b).Nodup
  fresh : ∀ b, ∀ i ∈ h.code b, i.id < h.next
  refers : ∀ b, ∀ i ∈ h.code b, ∀ o ∈ i.operands, h.Refers o
  /-- Blocks are operands of terminators only. -/
  targets_eq_nil : ∀ b, ∀ i ∈ h.code b, i.kind.isTerminator = false → i.targets = []
  /-- Links are those of the terminators. -/
  linked : h.Linked

/-! ### Links -/

section Links

variable (h : Handler) (b t : ℕ) (ts : List ℕ)

theorem linkAll_eq : ∃ ps ss, h.linkAll b ts = { h with predecessors := ps, successors := ss } := by
  induction ts generalizing h with
  | nil => exact ⟨_, _, rfl⟩
  | cons t ts ih => exact ih (h.linkSuccessor b t)

theorem unlinkAll_eq :
    ∃ ps ss, h.unlinkAll b ts = { h with predecessors := ps, successors := ss } := by
  induction ts generalizing h with
  | nil => exact ⟨_, _, rfl⟩
  | cons t ts ih => exact ih (h.unlinkSuccessor b t)

variable {h b t ts} {d : ℕ → ℕ → ℕ}

theorem count_update_append (f : ℕ → List ℕ) (a b c t : ℕ) : (update f b (f b ++ [t]) a).count c =
      (f a).count c + if a = b ∧ c = t then 1 else 0 := by
  rcases eq_or_ne a b with rfl | ha
  · rcases eq_or_ne c t with rfl | hc
    · simp
    · simp [hc, hc.symm]
  · simp [ha]

theorem count_update_erase (f : ℕ → List ℕ) (a b c t : ℕ) : (update f b ((f b).erase t) a).count c =
      (f a).count c - if a = b ∧ c = t then 1 else 0 := by
  rcases eq_or_ne a b with rfl | ha
  · rcases eq_or_ne c t with rfl | hc
    · simp
    · simp [hc, count_erase_of_ne hc]
  · simp [ha]

theorem LinkedBy.linkSuccessor (hd : h.LinkedBy d) : (h.linkSuccessor b t).LinkedBy
    fun a c ↦ d a c + if a = b ∧ c = t then 1 else 0 := by
  intro a c
  obtain ⟨hs, hp⟩ := hd a c
  dsimp only
  refine ⟨hs ▸ count_update_append _ a b c t, ?_⟩
  rw [← hp, if_congr and_comm rfl rfl]
  exact count_update_append _ c t a b

theorem LinkedBy.unlinkSuccessor (hd : h.LinkedBy d) : (h.unlinkSuccessor b t).LinkedBy
    fun a c ↦ d a c - if a = b ∧ c = t then 1 else 0 := by
  intro a c
  obtain ⟨hs, hp⟩ := hd a c
  dsimp only
  refine ⟨hs ▸ count_update_erase _ a b c t, ?_⟩
  rw [← hp, if_congr and_comm rfl rfl]
  exact count_update_erase _ c t a b

theorem LinkedBy.congr {d' : ℕ → ℕ → ℕ} (hd : h.LinkedBy d) (heq : ∀ b t, d b t = d' b t) :
    h.LinkedBy d' :=
  fun b t ↦ heq b t ▸ hd b t

theorem LinkedBy.linkAll (hd : h.LinkedBy d) :
    (h.linkAll b ts).LinkedBy fun a c ↦ d a c + if a = b then ts.count c else 0 := by
  induction ts generalizing h d with
  | nil => exact hd.congr fun a c ↦ by simp
  | cons t ts ih =>
    refine (ih hd.linkSuccessor).congr fun a c ↦ ?_
    by_cases ha : a = b
    · by_cases hc : c = t
      · simp [ha, hc]
        omega
      · simp [ha, hc, Ne.symm hc]
    · simp [ha]

theorem LinkedBy.unlinkAll (hd : h.LinkedBy d) :
    (h.unlinkAll b ts).LinkedBy fun a c ↦ d a c - if a = b then ts.count c else 0 := by
  induction ts generalizing h d with
  | nil => exact hd.congr fun a c ↦ by simp
  | cons t ts ih =>
    refine (ih hd.unlinkSuccessor).congr fun a c ↦ ?_
    by_cases ha : a = b
    · by_cases hc : c = t
      · simp [ha, hc]
        omega
      · simp [ha, hc, Ne.symm hc]
    · simp [ha]

end Links

/-! ### Edits -/

section Edits

variable {h : Handler} {b c bb : ℕ} {i t : Instr} {body : List Instr} {d : ℕ → ℕ → ℕ}

theorem getTerminator_eq (hcode : h.code b = body ++ [t]) (ht : t.kind.isTerminator = true) :
    h.getTerminator b = some t := by
  rw [getTerminator, hcode, getLast?_concat]
  exact if_pos ht

theorem slots_eq (hcode : h.code b = body ++ [t]) (ht : t.kind.isTerminator = true) :
    h.slots b c = t.targets.count c := by
  rw [slots, getTerminator_eq hcode ht]
  rfl

theorem slots_of_nil (hcode : h.code b = []) : h.slots b c = 0 := by
  rw [slots, getTerminator, hcode]
  rfl

theorem slots_congr {h' : Handler} (hcode : h'.code b = h.code b) : h'.slots b c = h.slots b c := by
  rw [slots, slots, getTerminator, getTerminator, hcode]

theorem erase_concat (hnodup : (body ++ [t]).Nodup) : (body ++ [t]).erase t = body := by
  have hmem : t ∉ body := fun hmem ↦
    (nodup_append.1 hnodup).2.2 t hmem t mem_cons_self rfl
  rw [erase_append_right _ hmem, erase_cons_head, append_nil]

theorem remove_terminator (hcode : h.code b = body ++ [t]) (ht : t.kind.isTerminator = true)
    (hnodup : (h.code b).Nodup) :
    (h.remove b t).blocks = h.blocks ∧ (h.remove b t).next = h.next ∧
      (h.remove b t).code = update h.code b body := by
  obtain ⟨ps, ss, heq⟩ := unlinkAll_eq h b t.targets
  rw [remove, if_pos (getTerminator_eq hcode ht), heq]
  refine ⟨rfl, rfl, ?_⟩
  rw [hcode, erase_concat (hcode ▸ hnodup)]

theorem LinkedBy.remove_terminator (hd : h.LinkedBy d) (hcode : h.code b = body ++ [t])
    (ht : t.kind.isTerminator = true) : (h.remove b t).LinkedBy
      fun a c ↦ d a c - if a = b then t.targets.count c else 0 := by
  rw [remove, if_pos (getTerminator_eq hcode ht)]
  exact hd.unlinkAll

theorem pushNew_eq (h : Handler) (b : ℕ) (kind : Kind) (operands : List Operand) :
    (h.pushNew b kind operands).blocks = h.blocks ∧ (h.pushNew b kind operands).next = h.next + 1 ∧
      (h.pushNew b kind operands).code =
        update h.code b (h.code b ++ [⟨h.next, kind, operands⟩]) := by
  rw [pushNew, pushBack]
  split
  · generalize hh : { h with next := h.next + 1, code := _ } = h'
    obtain ⟨ps, ss, heq⟩ := linkAll_eq h' b (Instr.targets ⟨h.next, kind, operands⟩)
    rw [heq, ← hh]
    exact ⟨rfl, rfl, rfl⟩
  · exact ⟨rfl, rfl, rfl⟩

theorem LinkedBy.pushNew (hd : h.LinkedBy d) (kind : Kind) (operands : List Operand) :
    (h.pushNew b kind operands).LinkedBy fun a c ↦ d a c +
      if a = b ∧ kind.isTerminator = true then (operands.filterMap Operand.toBlock).count c
      else 0 := by
  rw [Handler.pushNew, pushBack]
  split
  · next hk =>
    refine LinkedBy.congr (LinkedBy.linkAll (d := d) hd) fun a c ↦ ?_
    simp only [hk, and_true]
    rfl
  · next hk =>
    refine LinkedBy.congr (d := d) hd fun a c ↦ ?_
    simp [hk]

/-- Copies of instructions, with new numbers. -/
def clones (n : ℕ) : List Instr → List Instr
  | [] => []
  | i :: is => { i with id := n } :: clones (n + 1) is

theorem clones_concat (n : ℕ) (is : List Instr) (t : Instr) :
    clones n (is ++ [t]) = clones n is ++ [{ t with id := n + is.length }] := by
  induction is generalizing n with
  | nil => rfl
  | cons i is ih =>
    rw [cons_append, clones, clones, ih, cons_append, length_cons]
    simp only [add_assoc, add_comm 1]

variable {is : List Instr}

theorem mem_clones {n : ℕ} (hi : i ∈ clones n is) :
    n ≤ i.id ∧ i.id < n + is.length ∧ ∃ j ∈ is, i.kind = j.kind ∧ i.operands = j.operands := by
  induction is generalizing n with
  | nil => cases hi
  | cons j is ih =>
    rw [length_cons]
    rcases mem_cons.1 hi with rfl | hi
    · exact ⟨le_refl n, by dsimp only; omega, j, mem_cons_self, rfl, rfl⟩
    · obtain ⟨hle, hlt, k, hk, heq⟩ := ih hi
      exact ⟨by omega, by omega, k, mem_cons_of_mem j hk, heq⟩

theorem exists_mem_clones (n : ℕ) (hi : i ∈ is) : ∃ j ∈ clones n is, j.operands = i.operands := by
  induction is generalizing n with
  | nil => cases hi
  | cons k is ih =>
    rcases mem_cons.1 hi with rfl | hi
    · exact ⟨_, mem_cons_self, rfl⟩
    · obtain ⟨j, hj, heq⟩ := ih (n + 1) hi
      exact ⟨j, mem_cons_of_mem _ hj, heq⟩

theorem nodup_clones (n : ℕ) (is : List Instr) : ((clones n is).map Instr.id).Nodup := by
  induction is generalizing n with
  | nil => exact nodup_nil
  | cons j is ih =>
    rw [clones, map_cons, nodup_cons]
    refine ⟨fun hmem ↦ ?_, ih (n + 1)⟩
    obtain ⟨i, hi, hid⟩ := mem_map.1 hmem
    have hle := (mem_clones hi).1
    rw [hid] at hle
    exact Nat.not_succ_le_self n hle

theorem mergeBack_eq (is : List Instr) :
    let h' := is.foldl (fun h i ↦ h.pushNew b i.kind i.operands) h
    h'.blocks = h.blocks ∧ h'.next = h.next + is.length ∧
      h'.code = update h.code b (h.code b ++ clones h.next is) := by
  induction is generalizing h with
  | nil => exact ⟨rfl, rfl, by simp [clones]⟩
  | cons i is ih =>
    obtain ⟨hblocks, hnext, hcode⟩ := pushNew_eq h b i.kind i.operands
    obtain ⟨hblocks', hnext', hcode'⟩ := @ih (h.pushNew b i.kind i.operands)
    refine ⟨hblocks'.trans hblocks, ?_, ?_⟩
    · rw [foldl_cons, hnext', hnext, length_cons]
      omega
    · rw [foldl_cons, hcode', hcode, hnext, update_self, update_idem,
        append_assoc]
      rfl

theorem LinkedBy.mergeBack (hd : h.LinkedBy d) (hbody : ∀ i ∈ body, i.kind.isTerminator = false)
    (ht : t.kind.isTerminator = true) :
    ((body ++ [t]).foldl (fun h i ↦ h.pushNew b i.kind i.operands) h).LinkedBy
      fun a c ↦ d a c + if a = b then t.targets.count c else 0 := by
  induction body generalizing h d with
  | nil =>
    refine (hd.pushNew t.kind t.operands).congr fun a c ↦ ?_
    simp only [ht, and_true]
    rfl
  | cons i body ih =>
    refine (ih (hd.pushNew i.kind i.operands) fun j hj ↦ hbody j (mem_cons_of_mem i hj)).congr
      fun a c ↦ ?_
    simp [hbody i mem_cons_self]

theorem erase_eq (hT : h.code bb = body ++ [t]) (ht : t.kind.isTerminator = true)
    (hnodup : (h.code bb).Nodup) (hd : h.LinkedBy d)
    (hzero : ∀ a, d a bb = if a = bb then t.targets.count bb else 0)
    (hout : ∀ c, d bb c = t.targets.count c) :
    ∃ h', h.erase bb = some h' ∧ h'.blocks = h.blocks.erase bb ∧ h'.next = h.next ∧
      h'.code = update h.code bb [] ∧
      h'.LinkedBy fun a c ↦ if a = bb then 0 else d a c := by
  let h₁ : Handler := { h with blocks := h.blocks.erase bb }
  have hT₁ : h₁.code bb = body ++ [t] := hT
  have hd₁ : h₁.LinkedBy d := hd
  obtain ⟨hblocks, hnext, hcode⟩ := remove_terminator hT₁ ht hnodup
  have hd₂ := hd₁.remove_terminator hT₁ ht
  have hpreds : (h₁.remove bb t).predecessors bb = [] := by
    refine eq_nil_iff_forall_not_mem.2 fun a ↦ count_eq_zero.1 ?_
    rw [(hd₂ a bb).2]
    show d a bb - _ = 0
    rw [hzero, Nat.sub_self]
  have hsuccs : (h₁.remove bb t).successors bb = [] := by
    refine eq_nil_iff_forall_not_mem.2 fun c ↦ count_eq_zero.1 ?_
    rw [(hd₂ bb c).1]
    show d bb c - _ = 0
    rw [hout, if_pos rfl, Nat.sub_self]
  have herase : h.erase bb = some { h₁.remove bb t with
      code := update (h₁.remove bb t).code bb [] } := by
    rw [erase]
    show (if (match h₁.getTerminator bb with
        | some terminator => h₁.remove bb terminator
        | none => h₁).predecessors bb = [] ∧ _ then _ else _) = _
    rw [getTerminator_eq hT₁ ht]
    exact if_pos ⟨hpreds, hsuccs⟩
  refine ⟨_, herase, hblocks, hnext, ?_, ?_⟩
  · show update (h₁.remove bb t).code bb [] = _
    rw [hcode, update_idem]
  · refine LinkedBy.congr (d := fun _ _ ↦ _) hd₂ fun a c ↦ ?_
    by_cases ha : a = bb
    · subst ha
      rw [hout, if_pos rfl, if_pos rfl, Nat.sub_self]
    · rw [if_neg ha, if_neg ha, Nat.sub_zero]

end Edits

/-! ### Predecessors -/

section Predecessors

variable {h : Handler}

variable {b : ℕ} {i : Instr}

theorem replaceOperand_pos {old replacement : Operand} (hold : old ∈ i.operands) :
    0 < (h.replaceOperand b i old replacement).2 := by
  obtain ⟨k, hk, rfl⟩ := getElem_of_mem hold
  have hmono : ∀ (ks : List ℕ) (r : Handler × ℕ), (0 < r.2 ∨ k ∈ ks) →
      0 < (ks.foldl (fun r k' ↦ if i.operands[k']? = some i.operands[k] then
        (r.1.setOperand b i k' replacement, r.2 + 1) else r) r).2 := by
    intro ks
    induction ks with
    | nil => exact fun r hr ↦ hr.elim id nofun
    | cons k' ks ih =>
      intro r hr
      rw [foldl_cons]
      apply ih
      by_cases hk' : i.operands[k']? = some i.operands[k]
      · rw [if_pos hk']
        exact Or.inl (Nat.succ_pos _)
      · rw [if_neg hk']
        refine hr.imp id fun hmem ↦ (mem_cons.1 hmem).resolve_left ?_
        rintro rfl
        exact hk' (getElem?_eq_getElem hk)
  exact hmono _ _ (Or.inr (mem_range.2 hk))

variable {c : ℕ}

theorem WellFormed.exists_of_mem_predecessors (hwf : h.WellFormed) (hb : b ∈ h.predecessors c) :
    b ∈ h.blocks ∧ ∃ t ∈ h.code b, h.getTerminator b = some t ∧ .block c ∈ t.operands := by
  have hslots : 0 < h.slots b c := by
    rw [← (hwf.linked b c).2]
    exact count_pos_iff.2 hb
  have hmem : b ∈ h.blocks := by
    by_contra hmem
    rw [slots_of_nil (hwf.code_eq_nil b hmem)] at hslots
    exact lt_irrefl 0 hslots
  obtain ⟨body, t, hcode, ht, -⟩ := hwf.terminated b hmem
  refine ⟨hmem, t, hcode ▸ mem_append_right body mem_cons_self, getTerminator_eq hcode ht, ?_⟩
  rw [slots_eq hcode ht] at hslots
  exact Instr.mem_targets.1 (count_pos_iff.1 hslots)

/-- Only the last instruction of a block leads anywhere. -/
theorem WellFormed.exists_body (hwf : h.WellFormed) (hi : i ∈ h.code b)
    (hc : c ∈ i.targets) : i.kind.isTerminator = true ∧ ∃ body, h.code b = body ++ [i] := by
  have hb : b ∈ h.blocks := by
    by_contra hb
    rw [hwf.code_eq_nil b hb] at hi
    cases hi
  obtain ⟨body, t, hcode, ht, hbody⟩ := hwf.terminated b hb
  obtain rfl : i = t := by
    rcases mem_append.1 (hcode ▸ hi) with hi' | hi'
    · rw [hwf.targets_eq_nil b i hi (hbody i hi')] at hc
      cases hc
    · exact mem_singleton.1 hi'
  exact ⟨ht, body, hcode⟩

theorem WellFormed.mem_predecessors (hwf : h.WellFormed) (hi : i ∈ h.code b)
    (hc : c ∈ i.targets) : b ∈ h.predecessors c := by
  obtain ⟨ht, body, hcode⟩ := hwf.exists_body hi hc
  rw [← count_pos_iff, (hwf.linked b c).2, slots_eq hcode ht]
  exact count_pos_iff.2 hc

theorem replaceInPredecessors_eq (hwf : h.WellFormed) (bb replacement : ℕ) :
    h.replaceInPredecessors bb replacement (h.predecessors bb) =
      if h.predecessors bb = [] then some h else none := by
  rcases hpreds : h.predecessors bb with - | ⟨p, ps⟩
  · rfl
  · obtain ⟨-, t, -, ht, hop⟩ :=
      hwf.exists_of_mem_predecessors (hpreds ▸ mem_cons_self : p ∈ h.predecessors bb)
    rw [replaceInPredecessors, ht, if_neg (cons_ne_nil p ps)]
    exact if_neg (Nat.pos_iff_ne_zero.1 (replaceOperand_pos hop))

end Predecessors

/-! ### Checking a handler -/

section Check

variable {h : Handler}

instance (id : ℕ) : Decidable (h.Contains id) :=
  inferInstanceAs (Decidable (∃ b ∈ h.blocks, ∃ i ∈ h.code b, i.id = id))

instance (o : Operand) : Decidable (h.Refers o) :=
  match o with
  | .instr id => inferInstanceAs (Decidable (h.Contains id))
  | .block b => inferInstanceAs (Decidable (b ∈ h.blocks))
  | .const _ => .isTrue trivial
  | .builtin _ => .isTrue trivial
  | .other _ => .isTrue trivial
  | .null => .isTrue trivial

/-- The code of a block ends with its terminator and has no other. -/
def isTerminated (h : Handler) (b : ℕ) : Bool :=
  (h.code b).getLast?.any (fun i ↦ i.kind.isTerminator) &&
    (h.code b).dropLast.all fun i ↦ !i.kind.isTerminator

theorem wellFormed_of_blocks (hnodup : h.blocks.Nodup) (hne : h.blocks ≠ [])
    (hout : ∀ b ∉ h.blocks, h.code b = [] ∧ h.predecessors b = [] ∧ h.successors b = [])
    (hterm : ∀ b ∈ h.blocks, h.isTerminated b = true)
    (hunique : ∀ b ∈ h.blocks, ∀ b' ∈ h.blocks, ∀ i ∈ h.code b, ∀ i' ∈ h.code b',
      i.id = i'.id → b = b' ∧ i = i')
    (hcode : ∀ b ∈ h.blocks, (h.code b).Nodup ∧ ∀ i ∈ h.code b, i.id < h.next ∧
      (∀ o ∈ i.operands, h.Refers o) ∧ (i.kind.isTerminator = false → i.targets = []))
    (hlinks : ∀ b ∈ h.blocks, ∀ t ∈ h.blocks,
      (h.successors b).count t = h.slots b t ∧ (h.predecessors t).count b = h.slots b t)
    (hsuccs : ∀ b ∈ h.blocks, ∀ t ∈ h.successors b, t ∈ h.blocks)
    (hpreds : ∀ t ∈ h.blocks, ∀ b ∈ h.predecessors t, b ∈ h.blocks) : h.WellFormed := by
  have hmem : ∀ {b i}, i ∈ h.code b → b ∈ h.blocks := by
    intro b i hi
    by_contra hb
    rw [(hout b hb).1] at hi
    cases hi
  have hterminated : ∀ b ∈ h.blocks, ∃ body t, h.code b = body ++ [t] ∧
      t.kind.isTerminator = true ∧ ∀ i ∈ body, i.kind.isTerminator = false := by
    intro b hb
    have h₁ := hterm b hb
    rw [isTerminated, Bool.and_eq_true] at h₁
    rcases eq_nil_or_concat (h.code b) with hnil | ⟨body, t, heq⟩
    · rw [hnil] at h₁
      cases h₁.1
    · rw [concat_eq_append] at heq
      rw [heq, getLast?_concat, dropLast_concat] at h₁
      exact ⟨body, t, heq, h₁.1, by simpa using h₁.2⟩
  refine ⟨hnodup, hne, fun b hb ↦ (hout b hb).1, hterminated, ?_, ?_, ?_, ?_, ?_, ?_⟩
  · exact fun b b' i hi i' hi' ↦ hunique b (hmem hi) b' (hmem hi') i hi i' hi'
  · intro b
    by_cases hb : b ∈ h.blocks
    · exact (hcode b hb).1
    · rw [(hout b hb).1]
      exact nodup_nil
  · exact fun b i hi ↦ ((hcode b (hmem hi)).2 i hi).1
  · exact fun b i hi ↦ ((hcode b (hmem hi)).2 i hi).2.1
  · exact fun b i hi ↦ ((hcode b (hmem hi)).2 i hi).2.2
  · intro b t
    by_cases hb : b ∈ h.blocks
    · by_cases ht : t ∈ h.blocks
      · exact hlinks b hb t ht
      · have hslots : h.slots b t = 0 := by
          obtain ⟨body, i, heq, hi, -⟩ := hterminated b hb
          rw [slots_eq heq hi, count_eq_zero, Instr.mem_targets]
          have himem : i ∈ h.code b := heq ▸ mem_append_right body mem_cons_self
          exact fun hop ↦ ht (((hcode b hb).2 i himem).2.1 (.block t) hop)
        rw [hslots, (hout t ht).2.1]
        exact ⟨count_eq_zero.2 fun hmem ↦ ht (hsuccs b hb t hmem), rfl⟩
    · rw [slots_of_nil (hout b hb).1, (hout b hb).2.2]
      refine ⟨rfl, count_eq_zero.2 fun hmem ↦ ?_⟩
      by_cases ht : t ∈ h.blocks
      · exact hb (hpreds t ht b hmem)
      · rw [(hout t ht).2.1] at hmem
        cases hmem

end Check

end Handler

end Xzero.Flow.Ir

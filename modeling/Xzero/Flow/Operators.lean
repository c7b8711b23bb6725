import Xzero.Flow.Evaluation

/-!
# The operators of the language

What `docs/flow.7.pod` says about the operators on numbers, and what becomes of them on the way
through the parser, the builder, the generator and the machine. The operands are variables or
literals; an expression is `Correct` if it evaluates to what it means whatever the variables hold.

**`Source.correct_iff` is the exact table.** The order comparisons go wrong in the parser's table
already, which has `<` and `<=` (and `>` and `>=`) interchanged; the others where a literal does not
fit an immediate, where it stands on the left of an operator that does not commute, where the result
of two literals loses its sign on its way into a register, and where the machine's division traps.
-/

namespace Xzero.Flow

open Function Ir Option Vm BitVec Computation NumOp Expr Word BinaryOp

/-- The operators on two numbers. -/
inductive Operator
  | eq | ne | le | ge | lt | gt | add | sub | mul | div | rem
  deriving DecidableEq, Repr

namespace Operator

def token : Operator → FlowToken
  | eq => .equal
  | ne => .unEqual
  | le => .lessOrEqual
  | ge => .greaterOrEqual
  | lt => .less
  | gt => .greater
  | add => .plus
  | sub => .minus
  | mul => .mul
  | div => .div
  | rem => .mod

/-- What the language says: the relation of the two numbers, or the result in two's complement.
Division by zero means nothing. -/
def meaning : Operator → Word → Word → Option Word
  | eq, x, y => some (.ofBool (decide (x.toInt = y.toInt)))
  | ne, x, y => some (.ofBool (decide (x.toInt ≠ y.toInt)))
  | le, x, y => some (.ofBool (decide (x.toInt ≤ y.toInt)))
  | ge, x, y => some (.ofBool (decide (x.toInt ≥ y.toInt)))
  | lt, x, y => some (.ofBool (decide (x.toInt < y.toInt)))
  | gt, x, y => some (.ofBool (decide (x.toInt > y.toInt)))
  | add, x, y => some (BitVec.ofInt 64 (x.toInt + y.toInt))
  | sub, x, y => some (BitVec.ofInt 64 (x.toInt - y.toInt))
  | mul, x, y => some (BitVec.ofInt 64 (x.toInt * y.toInt))
  | div, x, y => if y = 0 then none else some (BitVec.ofInt 64 (x.toInt.tdiv y.toInt))
  | rem, x, y => if y = 0 then none else some (BitVec.ofInt 64 (x.toInt.tmod y.toInt))

/-- The operators that compare by order. -/
def IsOrder : Operator → Prop
  | le | ge | lt | gt => True
  | _ => False

instance (op : Operator) : Decidable op.IsOrder := by
  cases op <;> unfold IsOrder <;> infer_instance

def Divides : Operator → Prop
  | div | rem => True
  | _ => False

/-- The operation that the parser's table has for an operator. -/
def compiled : Operator → NumOp
  | eq => .cmpEQ
  | ne => .cmpNE
  | le => .cmpLT
  | ge => .cmpGT
  | lt => .cmpLE
  | gt => .cmpGE
  | add => .add
  | sub => .sub
  | mul => .mul
  | div => .div
  | rem => .rem

theorem makeOperator_token (op : Operator) :
    makeOperator op.token .number .number = rr op.compiled := by
  cases op <;> rfl

end Operator

/-- An operand: a variable that holds a number, or a literal. -/
inductive Operand
  | var (id : ℕ)
  | lit (n : Word)
  deriving DecidableEq, Repr

namespace Operand

/-- A literal that is negative is a number behind a minus. -/
def expr : Operand → Option Expr
  | var id => some (.var id .number)
  | lit n => if 0 ≤ n.toInt then some (.number n) else unaryExpr .minus (.number (-n))

/-- The number an operand stands for. -/
def value (ρ : Env) : Operand → Option Word
  | var id => (ρ id).toNumber
  | lit n => some n

end Operand

/-- An expression with one operator. -/
inductive Source
  | binary (op : Operator) (x y : Operand)
  /-- `bool(x)` -/
  | bool (x : Operand)
  deriving DecidableEq, Repr

namespace Source

def expr : Source → Option Expr
  | binary op x y => x.expr >>= fun l ↦ y.expr >>= fun r ↦ binaryExpr op.token l r
  | bool x => x.expr >>= castExpr .boolType

def value (ρ : Env) : Source → Option Datum
  | binary op x y => x.value ρ >>= fun a ↦ y.value ρ >>= fun b ↦ (op.meaning a b).map .word
  | bool x => (x.value ρ).map fun a ↦ .ofBool (decide (a.toInt ≠ 0))

/-- Compiled and run, it is what it means, whatever the variables hold. -/
def Correct (s : Source) : Prop :=
  ∀ ρ v, s.value ρ = some v → ∃ e, s.expr = some e ∧ e.Evaluates ρ v

/-- The expressions that are correct. -/
def Kept : Source → Prop
  | binary op (.var i) (.var j) => ¬op.IsOrder ∧ (op.Divides → i = j)
  | binary op (.var _) (.lit c) => ¬op.IsOrder ∧ op.compiled.KeepsRight c
  | binary op (.lit c) (.var _) => ¬op.IsOrder ∧ op.compiled.KeepsLeft c
  | binary op (.lit c) (.lit d) => ∀ v, op.meaning c d = some v → ¬v.Loses ∧
    (op.IsOrder → c ≠ d) ∧ (op.Divides → ¬(c = intMin 64 ∧ d = -1))
  | bool _ => False

end Source

/-! ### Through the compiler -/

section Compiled

variable {n i j : ℕ} {ρ : Env} {c d : Word} {v : Datum} {op : NumOp}

theorem binaryOps_rr (op : NumOp) (lhs rhs : Value) :
    binaryOps (rr op) lhs rhs = createNum op lhs rhs := by
  cases op <;> rfl

def Operand.node : Operand → Expr
  | var id => .var id .number
  | lit n => if 0 ≤ n.toInt then .number n else .unary .nneg (.number (-n))

/-- The operation on two operands. -/
abbrev NumOp.on (op : NumOp) (x y : Operand) : Expr := .binary (rr op) x.node y.node

theorem Operand.expr_eq (x : Operand) : x.expr = some x.node := by
  rcases x with id | n
  · rfl
  · rw [expr, node]
    split <;> rfl

theorem Operand.type_node (x : Operand) : x.node.type = .number := by
  rcases x with id | n
  · rfl
  · rw [node]
    split <;> rfl

theorem Operand.size_node_le (x : Operand) : x.node.size ≤ 2 := by
  rcases x with id | n
  · exact Nat.le_succ 1
  · rw [node]
    split
    · exact Nat.le_succ 1
    · exact Nat.le_refl 2

theorem Operand.exec_lit : (lit c).node.exec n ρ = some (.const (.int c), n, ρ) := by
  rw [node]
  split
  · rfl
  · show some (Value.const (.int (- -c)), n, ρ) = _
    rw [neg_neg]

theorem Operand.below_lit : (lit c).node.Below n := by
  rw [node]
  split <;> trivial

theorem Operand.eq_word_of_value {a : Word} (h : (var i).value ρ = some a) : ρ i = .word a := by
  rw [value] at h
  rcases hd : ρ i with w | s
  · rw [hd] at h
    exact congrArg Datum.word (some.inj h)
  · rw [hd] at h
    cases h

theorem Source.expr_binary (op : Operator) (x y : Operand) :
    (Source.binary op x y).expr = some (op.compiled.on x y) := by
  rw [expr, x.expr_eq, y.expr_eq]
  show binaryExpr op.token x.node y.node = _
  rw [binaryExpr, x.type_node, y.type_node, op.makeOperator_token]
  cases op <;> rfl

section Instruction

variable {l r : Expr} {lhs rhs : Value} {n₁ n₂ : ℕ} {ρ₁ ρ₂ : Env}
  (hl : l.exec n ρ = some (lhs, n₁, ρ₁)) (hr : r.exec n₁ ρ₁ = some (rhs, n₂, ρ₂))

include hl hr

theorem exec_binary :
    (binary (rr op) l r).exec n ρ = createNum op lhs rhs >>= fun c ↦ c.exec n₂ ρ₂ := by
  rw [exec, hl]
  show (r.exec n₁ ρ₁ >>= _) = _
  rw [hr]
  show (binaryOps (rr op) lhs rhs >>= _) = _
  rw [binaryOps_rr]

theorem outcome_instr (hc : createNum op lhs rhs = some (.instr (.binary (.num op) lhs rhs))) :
    (binary (rr op) l r).Outcome n ρ v ↔ (num op).selected ρ₂ lhs rhs = some v := by
  rw [Expr.Outcome, exec_binary hl hr, hc]
  show (∃ x n' ρ', ((num op).selected ρ₂ lhs rhs).map _ = some (x, n', ρ') ∧ _) ↔ _
  rcases (num op).selected ρ₂ lhs rhs with - | w
  · simp
  · constructor
    · rintro ⟨x, n', ρ', h, rfl⟩
      cases h
      show some w = some (update ρ₂ n₂ w n₂)
      rw [update_self]
    · rintro ⟨⟩
      exact ⟨_, _, _, rfl, update_self ..⟩

end Instruction

theorem createNum_left (op : NumOp) (id : ℕ) (rhs : Value) : createNum op (.instr id .number) rhs =
      some (.instr (.binary (.num op) (.instr id .number) rhs)) := by
  cases op <;> cases rhs <;> rfl

theorem createNum_right (op : NumOp) (id : ℕ) (lhs : Value) : createNum op lhs (.instr id .number) =
      some (.instr (.binary (.num op) lhs (.instr id .number))) := by
  cases op <;> rcases lhs with (a | a | a) | ⟨j, type⟩ <;> rfl

theorem outcome_var_var (hj : j < n) :
    (op.on (.var i) (.var j)).Outcome n ρ v ↔
      (num op).vm (ρ i) (ρ j) = some v := by
  have hload : update ρ n (ρ i) j = ρ j := update_of_ne (by omega) ..
  rw [outcome_instr rfl rfl (createNum_left ..), selected_num_registers,
    update_self, update_of_ne (Nat.ne_of_lt (Nat.lt_succ_self n)),
    update_self, hload]

theorem outcome_var_lit : (op.on (.var i) (.lit c)).Outcome n ρ v ↔
      op.withImmediate (ρ i) c = some v := by
  rw [outcome_instr rfl Operand.exec_lit (createNum_left ..), selected_num_right]
  show op.withImmediate (update ρ n (ρ i) n) c = some v ↔ _
  rw [update_self]

theorem outcome_lit_var (hop : op ≠ .pow) :
    (op.on (.lit c) (.var j)).Outcome n ρ v ↔
      op.withImmediate (ρ j) c = some v := by
  rw [outcome_instr Operand.exec_lit rfl (createNum_right ..), selected_num_left hop, update_self]

theorem outcome_lit_lit (hop : op ≠ .pow) :
    (op.on (.lit c) (.lit d)).Outcome n ρ v ↔
      (op.eval c d).map (fun w ↦ .word w.loaded) = some v := by
  rw [Expr.Outcome, exec_binary Operand.exec_lit Operand.exec_lit, Request.createNum_constants hop]
  rcases op.eval c d with - | w
  · simp
  · constructor
    · rintro ⟨x, n', ρ', h, rfl⟩
      cases h
      rfl
    · rintro ⟨⟩
      exact ⟨_, _, _, rfl, rfl⟩

end Compiled

/-! ### The machine's operations and the meanings -/

namespace Operator

variable {op : Operator} {x y v : Word}

/-- Apart from the order the parser's operation is the operator, where it does not trap. -/
theorem meaning_of_eval (hop : ¬op.IsOrder) (h : op.compiled.eval x y = some v) :
    op.meaning x y = some v := by
  cases op with
  | eq =>
    rw [← h]
    exact some_ofBool_inj.2 toInt_inj
  | ne =>
    rw [← h]
    exact some_ofBool_inj.2 toInt_inj.not
  | add => rw [← h, meaning, compiled, NumOp.eval, ofInt_add, ofInt_toInt,
      ofInt_toInt]
  | sub => rw [← h, meaning, compiled, NumOp.eval, Int.sub_eq_add_neg, ofInt_add,
      ofInt_neg, ofInt_toInt, ofInt_toInt, sub_eq_add_neg]
  | mul => rw [← h, meaning, compiled, NumOp.eval, ofInt_mul, ofInt_toInt,
      ofInt_toInt]
  | div =>
    obtain ⟨⟨hy, -⟩, hv⟩ := div_eval_iff.1 h
    rw [meaning, if_neg (toInt_eq_zero_iff.not.1 hy), ← hv, ofInt_toInt]
  | rem =>
    obtain ⟨⟨hy, -⟩, hv⟩ := rem_eval_iff.1 h
    rw [meaning, if_neg (toInt_eq_zero_iff.not.1 hy), ← hv, ofInt_toInt]
  | _ => exact (hop trivial).elim

/-- The operation has a result wherever the operator means something, but for the one quotient that
does not fit. -/
theorem exists_eval (h : op.meaning x y = some v)
    (htrap : op.Divides → ¬(x = intMin 64 ∧ y = -1)) : ∃ w, op.compiled.eval x y = some w := by
  cases op with
  | div | rem =>
    rw [meaning] at h
    split at h
    · cases h
    · exact ⟨_, if_neg (not_or.2 ⟨‹_›, htrap trivial⟩)⟩
  | _ => exact ⟨_, rfl⟩

theorem eval_of_meaning (hop : ¬op.IsOrder) (h : op.meaning x y = some v)
    (htrap : op.Divides → ¬(x = intMin 64 ∧ y = -1)) : op.compiled.eval x y = some v := by
  obtain ⟨w, hw⟩ := exists_eval h htrap
  rw [hw, ← meaning_of_eval hop hw, h]

theorem eval_trap (hop : op.Divides) : op.compiled.eval (intMin 64) (-1) = none := by
  cases op <;> first | exact hop.elim | decide

theorem meaning_trap (hop : op.Divides) : ∃ v, op.meaning (intMin 64) (-1) = some v := by
  cases op <;> first | exact hop.elim | exact ⟨_, rfl⟩

theorem eval_of_order (hop : op.IsOrder) (hne : x ≠ y) : op.compiled.eval x y = op.meaning x y := by
  have hint : x.toInt ≠ y.toInt := fun h ↦ hne (toInt_inj.1 h)
  cases op with
  | le | ge | lt | gt => exact some_ofBool_inj.2 (by omega)
  | _ => exact hop.elim

theorem order_self (hop : op.IsOrder) (x : Word) :
    ∃ b, op.meaning x x = some (.ofBool b) ∧ op.compiled.eval x x = some (.ofBool !b) := by
  cases op with
  | le | ge => exact ⟨true, by simp [meaning], by simp [compiled, NumOp.eval]⟩
  | lt | gt => exact ⟨false, by simp [meaning], by simp [compiled, NumOp.eval]⟩
  | _ => exact hop.elim

theorem compiled_ne_pow (op : Operator) : op.compiled ≠ .pow := by
  cases op <;> decide

end Operator

/-! ### The table is exact -/

namespace Source

variable {op : Operator} {x y : Operand} {i j : ℕ} {c d : Word}

theorem correct_of_outcome
    (h : ∀ ρ a b v, x.value ρ = some a → y.value ρ = some b → op.meaning a b = some v →
      ∀ n, (op.compiled.on x y).Below n →
        (op.compiled.on x y).Outcome n ρ (.word v)) :
    (binary op x y).Correct := by
  intro ρ v hv
  simp only [value, bind_eq_bind, bind_eq_some_iff, map_eq_some_iff] at hv
  obtain ⟨a, ha, b, hb, w, hw, rfl⟩ := hv
  exact ⟨_, expr_binary op x y, evaluates_of_outcome (h ρ a b w ha hb hw)⟩

/-- Where the variables hold two values, a correct expression has the outcome it means. -/
theorem outcome_of_correct (hcorrect : (binary op x y).Correct) {a b v : Word} {p q : Datum}
    {n k : ℕ} (ha : x.value (fun m ↦ if m = k then p else q) = some a)
    (hb : y.value (fun m ↦ if m = k then p else q) = some b) (hv : op.meaning a b = some v)
    (hbelow : (op.compiled.on x y).Below n) :
    (op.compiled.on x y).Outcome n (fun m ↦ if m = k then p else q)
      (.word v) := by
  have hval : (binary op x y).value (fun m ↦ if m = k then p else q) = some (.word v) := by
    rw [value, ha]
    rw [hb]
    show (op.meaning a b).map Datum.word = _
    rw [hv]
    rfl
  obtain ⟨e, he, heval⟩ := hcorrect _ _ hval
  obtain rfl := some.inj ((expr_binary op x y).symm.trans he)
  refine Expr.outcome_of_evaluates ?_ hbelow heval
  have hx := x.size_node_le
  have hy := y.size_node_le
  simp only [Expr.size]
  omega

theorem correct_var_var_iff :
    (binary op (.var i) (.var j)).Correct ↔ ¬op.IsOrder ∧ (op.Divides → i = j) := by
  constructor
  · intro h
    have hbelow : (op.compiled.on (.var i) (.var j)).Below (i + j + 1) := ⟨by show i < _; omega, by show j < _; omega⟩
    constructor
    · intro hop
      obtain ⟨b, hmean, heval⟩ := Operator.order_self hop 0
      have hout := outcome_of_correct (k := i) (p := .word 0) (q := .word 0) h
        (by simp [Operand.value]) (by simp [Operand.value]) hmean hbelow
      rw [outcome_var_var (by omega), ite_self, ite_self, vm_num, heval] at hout
      cases b <;> exact absurd hout (by decide)
    · intro hop
      by_contra hij
      obtain ⟨v, hmean⟩ := Operator.meaning_trap hop
      have hout := outcome_of_correct (k := i) (p := .word (intMin 64)) (q := .word (-1)) h
        (by simp only [Operand.value, if_true]; rfl)
        (by simp only [Operand.value, Ne.symm hij, if_false]; rfl) hmean hbelow
      rw [outcome_var_var (by omega), if_pos rfl, if_neg (Ne.symm hij), vm_num,
        Operator.eval_trap hop] at hout
      cases hout
  · rintro ⟨hop, hij⟩
    refine correct_of_outcome fun ρ a b v ha hb hv n hbelow ↦ ?_
    have ha' := Operand.eq_word_of_value ha
    have hb' := Operand.eq_word_of_value hb
    rw [outcome_var_var hbelow.2, ha', hb', vm_num, map_word_eq_some_iff]
    refine Operator.eval_of_meaning hop hv fun hdiv ⟨hmin, hone⟩ ↦ ?_
    obtain rfl := hij hdiv
    rw [ha', Datum.word.injEq, hmin, hone] at hb'
    revert hb'
    decide

/-- A comparison with a literal that was cut cannot be made up for by the interchange. -/
theorem not_order_right (hop : op.IsOrder)
    (h : ∀ w v, op.meaning w c = some v → op.compiled.eval w c.low16 = some v) : False := by
  have hmod := toInt_low16 c
  have hint : ∀ k : ℤ, -1 ≤ k → k ≤ 2 ^ 16 → (BitVec.ofInt 64 k).toInt = k := by
    intro k hge hle
    rw [toInt_ofInt]
    exact Int.bmod_eq_of_le (by omega) (by omega)
  have hbelow := hint (c.low16.toInt - 1) (by omega) (by omega)
  have habove := hint (c.low16.toInt + 1) (by omega) (by omega)
  cases op with
  | le | gt =>
    have h0 := some_ofBool_inj.1 (h c.low16 _ rfl)
    have h1 := some_ofBool_inj.1 (h (BitVec.ofInt 64 (c.low16.toInt - 1)) _ rfl)
    omega
  | ge | lt =>
    have h0 := some_ofBool_inj.1 (h c.low16 _ rfl)
    have h1 := some_ofBool_inj.1 (h (BitVec.ofInt 64 (c.low16.toInt + 1)) _ rfl)
    omega
  | _ => exact hop.elim

theorem not_order_left (hop : op.IsOrder)
    (h : ∀ w v, op.meaning c w = some v → op.compiled.eval w c.low16 = some v) : False := by
  have hbounds := toInt_low16_bounds c
  obtain ⟨hlarge, hone, hmin, -⟩ := toInt_large
  have hge := le_toInt c
  cases op with
  | le | lt | gt =>
    have h0 := some_ofBool_inj.1 (h (-1) _ rfl)
    have h1 := some_ofBool_inj.1 (h 65536 _ rfl)
    omega
  | ge =>
    have h0 := some_ofBool_inj.1 (h (-1) _ rfl)
    have h1 := some_ofBool_inj.1 (h (intMin 64) _ rfl)
    omega
  | _ => exact hop.elim

theorem correct_var_lit_iff :
    (binary op (.var i) (.lit c)).Correct ↔ ¬op.IsOrder ∧ op.compiled.KeepsRight c := by
  constructor
  · intro h
    have hcut : ∀ w v, op.meaning w c = some v → op.compiled.eval w c.low16 = some v := by
      intro w v hv
      have hout := outcome_of_correct (k := i) (p := .word w) (q := .word w) h
        (by simp [Operand.value]) rfl hv ⟨Nat.lt_succ_self i, Operand.below_lit⟩
      rw [outcome_var_lit, ite_self, withImmediate_word, map_word_eq_some_iff] at hout
      exact hout
    have hop : ¬op.IsOrder := fun hop ↦ not_order_right hop hcut
    exact ⟨hop, (keepsRight_iff _).1 fun w v hv ↦ hcut w v (Operator.meaning_of_eval hop hv)⟩
  · rintro ⟨hop, hkeeps⟩
    refine correct_of_outcome fun ρ a b v ha hb hv n hbelow ↦ ?_
    obtain rfl := some.inj hb
    rw [outcome_var_lit, Operand.eq_word_of_value ha, withImmediate_word, map_word_eq_some_iff]
    refine (keepsRight_iff _).2 hkeeps a v (Operator.eval_of_meaning hop hv ?_)
    rintro hdiv ⟨-, rfl⟩
    revert hkeeps
    cases op <;> first | exact hdiv.elim | decide

theorem correct_lit_var_iff :
    (binary op (.lit c) (.var j)).Correct ↔ ¬op.IsOrder ∧ op.compiled.KeepsLeft c := by
  constructor
  · intro h
    have hcut : ∀ w v, op.meaning c w = some v → op.compiled.eval w c.low16 = some v := by
      intro w v hv
      have hout := outcome_of_correct (k := j) (p := .word w) (q := .word w) h rfl
        (by simp [Operand.value]) hv ⟨Operand.below_lit, Nat.lt_succ_self j⟩
      rw [outcome_lit_var op.compiled_ne_pow, ite_self, withImmediate_word,
        map_word_eq_some_iff] at hout
      exact hout
    have hop : ¬op.IsOrder := fun hop ↦ not_order_left hop hcut
    exact ⟨hop, (keepsLeft_iff _).1 fun w v hv ↦ hcut w v (Operator.meaning_of_eval hop hv)⟩
  · rintro ⟨hop, hkeeps⟩
    refine correct_of_outcome fun ρ a b v ha hb hv n hbelow ↦ ?_
    obtain rfl := some.inj ha
    rw [outcome_lit_var op.compiled_ne_pow, Operand.eq_word_of_value hb,
      withImmediate_word, map_word_eq_some_iff]
    refine (keepsLeft_iff _).2 hkeeps b v (Operator.eval_of_meaning hop hv fun hdiv ↦ ?_)
    cases op <;> first | exact hdiv.elim | exact hkeeps.elim

theorem not_loses_ofBool (b : Bool) : ¬(Word.ofBool b).Loses := by
  cases b <;> decide

theorem correct_lit_lit_iff :
    (binary op (.lit c) (.lit d)).Correct ↔ (binary op (.lit c) (.lit d)).Kept := by
  have hout : ∀ n ρ v, (op.compiled.on (.lit c) (.lit d)).Outcome n ρ (.word v) ↔ (op.compiled.eval c d).map loaded = some v := by
    intro n ρ v
    rw [outcome_lit_lit op.compiled_ne_pow]
    rcases op.compiled.eval c d with - | w <;> simp
  constructor
  · intro h v hv
    have hloaded := outcome_of_correct (k := 0) (p := .word 0) (q := .word 0) (n := 0) h rfl rfl hv
      ⟨Operand.below_lit, Operand.below_lit⟩
    rw [hout] at hloaded
    obtain ⟨w, hw, hwv⟩ := map_eq_some_iff.1 hloaded
    have htrap : op.Divides → ¬(c = intMin 64 ∧ d = -1) := by
      rintro hdiv ⟨rfl, rfl⟩
      rw [Operator.eval_trap hdiv] at hw
      cases hw
    by_cases hop : op.IsOrder
    · have hne : c ≠ d := by
        rintro rfl
        obtain ⟨b, hmean, heval⟩ := Operator.order_self hop c
        obtain rfl := some.inj (hmean.symm.trans hv)
        obtain rfl := some.inj (heval.symm.trans hw)
        rw [loaded_eq_iff.2 (not_loses_ofBool _), ofBool_inj] at hwv
        cases b <;> cases hwv
      have hself := Operator.eval_of_order hop hne
      rw [hw, hv, some_inj] at hself
      subst hself
      exact ⟨loaded_eq_iff.1 hwv, fun _ ↦ hne, htrap⟩
    · obtain rfl := some.inj ((Operator.meaning_of_eval hop hw).symm.trans hv)
      exact ⟨loaded_eq_iff.1 hwv, fun h ↦ (hop h).elim, htrap⟩
  · intro h
    refine correct_of_outcome fun ρ a b v ha hb hv n _ ↦ ?_
    obtain rfl := some.inj ha
    obtain rfl := some.inj hb
    obtain ⟨hloses, hne, htrap⟩ := h v hv
    have heval : op.compiled.eval c d = some v := by
      by_cases hop : op.IsOrder
      · rw [Operator.eval_of_order hop (hne hop), hv]
      · exact Operator.eval_of_meaning hop hv htrap
    rw [hout, heval, map_some, loaded_eq_iff.2 hloses]

theorem expr_bool (x : Operand) : (bool x).expr = some (.unary .ncmpz x.node) := by
  rw [expr, x.expr_eq]
  show castExpr .boolType x.node = _
  rw [castExpr, x.type_node]
  rfl

theorem not_outcome_bool (x : Operand) (n : ℕ) (ρ : Env) (d : Datum) :
    ¬(unary .ncmpz x.node).Outcome n ρ d := by
  rintro ⟨v, n', ρ', h, -⟩
  rw [exec] at h
  rcases hx : x.node.exec n ρ with - | r <;> rw [hx] at h <;> cases h

theorem not_correct_bool (x : Operand) : ¬(bool x).Correct := by
  intro h
  have hvalue : ∃ v, (bool x).value (fun m ↦ if m = 0 then .word 0 else .word 0) = some v := by
    rcases x with id | c
    · exact ⟨_, by rw [value, Operand.value, ite_self]; rfl⟩
    · exact ⟨_, rfl⟩
  have hbelow : ∃ n, (unary .ncmpz x.node).Below n := by
    rcases x with id | c
    · exact ⟨id + 1, Nat.lt_succ_self id⟩
    · exact ⟨0, Operand.below_lit⟩
  have hsize : (unary .ncmpz x.node).size ≤ 30 := by
    have := x.size_node_le
    rw [size]
    omega
  obtain ⟨v, hv⟩ := hvalue
  obtain ⟨n, hn⟩ := hbelow
  obtain ⟨e, he, heval⟩ := h _ v hv
  obtain rfl := some.inj ((expr_bool x).symm.trans he)
  exact not_outcome_bool x _ _ _ (outcome_of_evaluates hsize hn heval)

/-- **An expression is correct exactly if the table has it.** -/
theorem correct_iff (s : Source) : s.Correct ↔ s.Kept := by
  rcases s with ⟨op, i | c, j | d⟩ | x
  · exact correct_var_var_iff
  · exact correct_var_lit_iff
  · exact correct_lit_var_iff
  · exact correct_lit_lit_iff
  · exact iff_of_false (not_correct_bool x) id

/-- `a <= a` is false. -/
theorem not_correct_le : ¬∀ s : Source, s.Correct := by
  intro h
  exact (correct_var_var_iff.1 (h (.binary .le (.var 0) (.var 0)))).1 trivial

end Source

end Xzero.Flow

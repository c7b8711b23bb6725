import Xzero.Flow.Evaluation

/-!
# Values without numbers

What a compiled expression evaluates to does not depend on the numbers its instructions got: only on
the values of its variables. `Shape` is a value without its number, `Expr.denote` the shape that an
expression evaluates to, and **`exec_shape` says that it evaluates to this wherever it stands**.
-/

namespace Xzero.Flow

open Function Ir Util Vm Option StringUtil Computation Created

/-- A constant, or what a register holds. -/
inductive Shape
  | const (c : Constant)
  | computed (type : FlowType) (d : Datum)
  deriving DecidableEq, Repr

namespace Shape

def datum : Shape → Datum
  | const c => c.datum
  | computed _ d => d

def isConst : Shape → Bool
  | const _ => true
  | computed _ _ => false

def type : Shape → FlowType
  | const c => c.type
  | computed type _ => type

end Shape

def Ir.Value.shape (ρ : Env) : Value → Shape
  | .const c => .const c
  | .instr id type => .computed type (ρ id)

/-- What a `create` function returns, without numbers. -/
def Ir.Created.shape (ρ : Env) : Created → Option Shape
  | .value v => some (v.shape ρ)
  | .instr c => (c.selected ρ).map (.computed c.type)

section

variable {ρ σ : Env} {n m k : ℕ} {v w v' w' : Value}

@[simp] theorem type_shape (v : Value) : (v.shape ρ).type = v.type := by
  rcases v with c | ⟨id, type⟩ <;> rfl

/-- The shape of a result of `exec`. -/
def shapeOf (r : Value × ℕ × Env) : Shape := r.1.shape r.2.2

theorem shape_exec (c : Created) : (c.exec n ρ).map shapeOf = c.shape ρ := by
  rcases c with v | i
  · rfl
  · rw [exec, shape, map_map]
    congr 1
    funext d
    show Shape.computed _ (update ρ n d n) = _
    rw [update_self]

theorem map_shapeOf_bind (c : Option Created) :
    (c >>= fun c ↦ c.exec n ρ).map shapeOf = c >>= shape ρ := by
  rcases c with - | c
  · rfl
  · exact shape_exec c

theorem map_shapeOf_cases {r r' : Option (Value × ℕ × Env)}
    (h : r.map shapeOf = r'.map shapeOf) : (r = none ∧ r' = none) ∨
      ∃ p p', r = some p ∧ r' = some p' ∧ p.1.shape p.2.2 = p'.1.shape p'.2.2 := by
  rcases r with - | p
  · rcases r' with - | p'
    · exact .inl ⟨rfl, rfl⟩
    · cases h
  · rcases r' with - | p'
    · cases h
    · exact .inr ⟨p, p', rfl, rfl, some.inj h⟩

theorem const_of_shape (h : v.shape ρ = w.shape σ) : (∃ c, v = .const c ∧ w = .const c) ∨
      ∃ i j type, v = .instr i type ∧ w = .instr j type ∧ ρ i = σ j := by
  rcases v with c | ⟨i, type⟩
  · rcases w with d | ⟨j, type'⟩
    · obtain rfl := Shape.const.inj h
      exact .inl ⟨c, rfl, rfl⟩
    · cases h
  · rcases w with d | ⟨j, type'⟩
    · cases h
    · obtain ⟨rfl, hd⟩ := Shape.computed.inj h
      exact .inr ⟨i, j, type, rfl, rfl, hd⟩

/-- Values of one shape, by the kinds of constants that the builder tells apart. -/
inductive Alike : Value → Value → Prop
  | int (c : Word) : Alike (.const (.int c)) (.const (.int c))
  | boolean (c : Bool) : Alike (.const (.boolean c)) (.const (.boolean c))
  | string (c : Bytes) : Alike (.const (.string c)) (.const (.string c))
  | instr (i j : ℕ) (type : FlowType) : Alike (.instr i type) (.instr j type)

theorem alike_of_shape (h : v.shape ρ = w.shape σ) : Alike v w := by
  obtain ⟨c | c | c, rfl, rfl⟩ | ⟨i, j, type, rfl, rfl, -⟩ := const_of_shape h <;> constructor

theorem loaded_of_shape (h : v.shape ρ = w.shape σ) : v.loaded ρ = w.loaded σ := by
  obtain ⟨c, rfl, rfl⟩ | ⟨i, j, type, rfl, rfl, hd⟩ := const_of_shape h
  · rfl
  · exact hd

theorem type_of_shape (h : v.shape ρ = w.shape σ) : v.type = w.type := by
  rw [← type_shape, h, type_shape]

theorem selected_unary_shape (op : UnaryOp) (h : v.shape ρ = w.shape σ) :
    op.selected ρ v = op.selected σ w := by
  cases op <;> simp only [UnaryOp.selected, loaded_of_shape h, type_of_shape h]

theorem ofBinary_shape (op : NumOp) (h : v.shape ρ = w.shape σ) (h' : v'.shape ρ = w'.shape σ) :
    op.ofBinary ρ v v' = op.ofBinary σ w w' := by
  have hl := loaded_of_shape h
  have hl' := loaded_of_shape h'
  cases alike_of_shape h' <;> simp only [NumOp.ofBinary, hl, hl']

theorem ofBinaryAssoc_shape (op : NumOp) (h : v.shape ρ = w.shape σ)
    (h' : v'.shape ρ = w'.shape σ) : op.ofBinaryAssoc ρ v v' = op.ofBinaryAssoc σ w w' := by
  have hl := loaded_of_shape h
  have hl' := loaded_of_shape h'
  cases alike_of_shape h <;> cases alike_of_shape h' <;> simp only [NumOp.ofBinaryAssoc, hl, hl']

theorem selected_binary_shape (op : BinaryOp) (h : v.shape ρ = w.shape σ)
    (h' : v'.shape ρ = w'.shape σ) : op.selected ρ v v' = op.selected σ w w' := by
  have hassoc := fun op ↦ ofBinaryAssoc_shape op h h'
  have hbinary := fun op ↦ ofBinary_shape op h h'
  cases op with
  | num op => cases op <;> simp only [BinaryOp.selected, hassoc, hbinary]
  | _ => simp only [BinaryOp.selected, loaded_of_shape h, loaded_of_shape h']

/-! ### What the builder sees -/

theorem shape_unary (op : UnaryOp) (h : v.shape ρ = w.shape σ) :
    (instr (.unary op v)).shape ρ = (instr (.unary op w)).shape σ := by
  have htype : (unary op v).type = (unary op w).type := by cases op <;> rfl
  simp only [shape, selected, selected_unary_shape op h, htype]

theorem shape_binary (op : BinaryOp) (h : v.shape ρ = w.shape σ) (h' : v'.shape ρ = w'.shape σ) :
    (instr (.binary op v v')).shape ρ = (instr (.binary op w w')).shape σ := by
  have htype : (binary op v v').type = (binary op w w').type := by
    cases op with
    | num op => cases op <;> rfl
    | _ => rfl
  simp only [shape, selected, selected_binary_shape op h h', htype]

theorem unaryOps_shape (op : Opcode) (h : v.shape ρ = w.shape σ) :
    (unaryOps op v >>= shape ρ) = (unaryOps op w >>= shape σ) := by
  have hinstr := fun op ↦ shape_unary op h
  obtain ⟨c, rfl, rfl⟩ | ⟨i, j, type, rfl, rfl, -⟩ := const_of_shape h
  · rcases c with c | c | c
    · cases op <;> rfl
    · cases op <;> rfl
    · cases op with
      | s2i =>
        show (((stoi c).map fun n ↦ int (BitVec.ofInt 64 n)) >>= _) =
          (((stoi c).map fun n ↦ int (BitVec.ofInt 64 n)) >>= _)
        rcases stoi c with - | n <;> rfl
      | _ => rfl
  · cases op with
    | i2s => exact hinstr .toStr
    | s2i => exact hinstr .toNumber
    | nneg => exact hinstr .ineg
    | nnot => exact hinstr .inot
    | bnot => exact hinstr .bnot
    | _ => rfl

section Binary

variable (h : v.shape ρ = w.shape σ) (h' : v'.shape ρ = w'.shape σ)

include h h'

theorem createNumbers_shape (op : NumOp) (fold : Word → Word → Option Word) :
    (createNumbers op fold v v' >>= shape ρ) = (createNumbers op fold w w' >>= shape σ) := by
  have hinstr := shape_binary (.num op) h h'
  cases alike_of_shape h <;> cases alike_of_shape h' <;> try exact hinstr
  rename_i c d
  show ((fold c d).map int >>= _) = ((fold c d).map int >>= _)
  rcases fold c d with - | n <;> rfl

theorem createTest_shape (op : BinaryOp) (test : Bytes → Bytes → Bool) :
    (createTest op test v v').shape ρ = (createTest op test w w').shape σ := by
  have hinstr := shape_binary op h h'
  cases alike_of_shape h <;> cases alike_of_shape h' <;> first | exact hinstr | rfl

theorem createBoolean_shape : (createBAnd v v').shape ρ = (createBAnd w w').shape σ ∧
    (createBXor v v').shape ρ = (createBXor w w').shape σ := by
  have hinstr := shape_binary .band h h'
  cases alike_of_shape h <;> cases alike_of_shape h' <;>
    first | exact ⟨hinstr, hinstr⟩ | exact ⟨rfl, rfl⟩

theorem createSAdd_shape : (createSAdd v v').shape ρ = (createSAdd w w').shape σ := by
  have hinstr := shape_binary .sadd h h'
  obtain ⟨c | c | (- | ⟨b, c⟩), rfl, rfl⟩ | ⟨i, j, type, rfl, rfl, -⟩ := const_of_shape h <;>
    obtain ⟨d | d | (- | ⟨b', d⟩), rfl, rfl⟩ | ⟨i', j', type', rfl, rfl, -⟩ := const_of_shape h' <;>
    first | exact hinstr | exact congrArg some h' | rfl

theorem binaryOps_shape (op : Opcode) :
    (binaryOps op v v' >>= shape ρ) = (binaryOps op w w' >>= shape σ) := by
  have hnum := fun op fold ↦ createNumbers_shape h h' op fold
  have htest := fun op test ↦ createTest_shape h h' op test
  obtain ⟨hand, hxor⟩ := createBoolean_shape h h'
  have hadd := createSAdd_shape h h'
  cases op <;> first | exact hnum _ _ | exact hand | exact hxor | exact hadd | exact htest _ _ | rfl

end Binary

/-! ### Where an expression stands -/

theorem shape_congr (hv : v.Below n) (h : ∀ i < n, ρ i = σ i) : v.shape ρ = v.shape σ := by
  rcases v with c | ⟨id, type⟩
  · rfl
  · exact congrArg _ (h id hv)

/-- `exec` went from `n` and `ρ` to the result `r`: values from before are kept. -/
structure Reaches (n : ℕ) (ρ : Env) (r : Value × ℕ × Env) : Prop where
  le : n ≤ r.2.1
  below : r.1.Below r.2.1
  keeps : ∀ i < n, r.2.2 i = ρ i

theorem Created.exec_reaches {c : Created} {r : Value × ℕ × Env} (hc : c.Below n)
    (h : c.exec n ρ = some r) : Reaches n ρ r := by
  rcases c with v | i
  · cases h
    exact ⟨le_refl n, hc, fun _ _ ↦ rfl⟩
  · obtain ⟨d, -, rfl⟩ := map_eq_some_iff.1 h
    exact ⟨Nat.le_succ n, Nat.lt_succ_self n, fun i hi ↦ update_of_ne (ne_of_lt hi) _ _⟩

theorem Reaches.trans {r r' : Value × ℕ × Env} (h : Reaches n ρ r) (h' : Reaches r.2.1 r.2.2 r') :
    Reaches n ρ r' :=
  ⟨h.le.trans h'.le, h'.below, fun i hi ↦ (h'.keeps i (hi.trans_le h.le)).trans (h.keeps i hi)⟩

theorem exec_reaches {e : Expr} {r : Value × ℕ × Env} (he : e.Below n)
    (h : e.exec n ρ = some r) : Reaches n ρ r := by
  induction e generalizing n ρ r with
  | number a | string s | boolean a => cases h; exact ⟨le_refl n, trivial, fun _ _ ↦ rfl⟩
  | var id type =>
    cases h
    exact ⟨Nat.le_succ n, Nat.lt_succ_self n, fun i hi ↦ update_of_ne (ne_of_lt hi) _ _⟩
  | unary op e ih =>
    simp only [Expr.exec, bind_eq_bind, bind_eq_some_iff] at h
    obtain ⟨p, hp, c, hc, h⟩ := h
    have hreach := ih he hp
    exact hreach.trans (Created.exec_reaches (unaryOps_below hc hreach.below) h)
  | binary op l r ihl ihr =>
    simp only [Expr.exec, bind_eq_bind, bind_eq_some_iff] at h
    obtain ⟨p, hp, q, hq, c, hc, h⟩ := h
    have hl := ihl he.1 hp
    have hr := ihr (he.2.mono hl.le) hq
    exact (hl.trans hr).trans
      (Created.exec_reaches (binaryOps_below hc (hl.below.mono hr.le) hr.below) h)

/-- **An expression evaluates to the same wherever it stands**, as long as its variables have the
same values. -/
theorem exec_shape {e : Expr} (he : e.Below k) (hn : k ≤ n) (hm : k ≤ m)
    (h : ∀ i < k, ρ i = σ i) : (e.exec n ρ).map shapeOf = (e.exec m σ).map shapeOf := by
  induction e generalizing n m ρ σ with
  | number a => rfl
  | string s => rfl
  | boolean a => rfl
  | var id type =>
    show some (Shape.computed type (update ρ n (ρ id) n)) =
      some (Shape.computed type (update σ m (σ id) m))
    rw [update_self, update_self, h id he]
  | unary op e ih =>
    rw [Expr.exec, Expr.exec]
    obtain ⟨hp, hp'⟩ | ⟨p, p', hp, hp', hshape⟩ := map_shapeOf_cases (ih he hn hm h)
    · rw [hp, hp']
    · rw [hp, hp']
      show (unaryOps op p.1 >>= fun c ↦ c.exec p.2.1 p.2.2).map shapeOf =
        (unaryOps op p'.1 >>= fun c ↦ c.exec p'.2.1 p'.2.2).map shapeOf
      rw [map_shapeOf_bind, map_shapeOf_bind, unaryOps_shape op hshape]
  | binary op l r ihl ihr =>
    rw [Expr.exec, Expr.exec]
    obtain ⟨hp, hp'⟩ | ⟨p, p', hp, hp', hshape⟩ := map_shapeOf_cases (ihl he.1 hn hm h)
    · rw [hp, hp']
    rw [hp, hp']
    have hl := exec_reaches (he.1.mono hn) hp
    have hl' := exec_reaches (he.1.mono hm) hp'
    have hagree : ∀ i < k, p.2.2 i = p'.2.2 i := fun i hi ↦ by
      rw [hl.keeps i (hi.trans_le hn), hl'.keeps i (hi.trans_le hm), h i hi]
    show (r.exec p.2.1 p.2.2 >>= _).map shapeOf = (r.exec p'.2.1 p'.2.2 >>= _).map shapeOf
    obtain ⟨hq, hq'⟩ | ⟨q, q', hq, hq', hshape'⟩ :=
      map_shapeOf_cases (ihr he.2 (hn.trans hl.le) (hm.trans hl'.le) hagree)
    · rw [hq, hq']
      rfl
    rw [hq, hq']
    have hr := exec_reaches (he.2.mono (hn.trans hl.le)) hq
    have hr' := exec_reaches (he.2.mono (hm.trans hl'.le)) hq'
    -- The left operand has kept its value while the right one was computed.
    have hshape : p.1.shape q.2.2 = p'.1.shape q'.2.2 := by
      rw [shape_congr hl.below hr.keeps, shape_congr hl'.below hr'.keeps]
      exact hshape
    show (binaryOps op p.1 q.1 >>= fun c ↦ c.exec q.2.1 q.2.2).map shapeOf =
      (binaryOps op p'.1 q'.1 >>= fun c ↦ c.exec q'.2.1 q'.2.2).map shapeOf
    rw [map_shapeOf_bind, map_shapeOf_bind, binaryOps_shape hshape hshape' op]

end

/-- A number above those of the variables. -/
def Expr.bound : Expr → ℕ
  | number _ | string _ | boolean _ => 0
  | var id _ => id + 1
  | unary _ e => e.bound
  | binary _ l r => max l.bound r.bound

/-- What an expression evaluates to where the values of its variables are `ρ`. -/
def Expr.denote (ρ : Env) (e : Expr) : Option Shape := (e.exec e.bound ρ).map shapeOf

theorem Expr.below_iff {e : Expr} {n : ℕ} : e.Below n ↔ e.bound ≤ n := by
  induction e with
  | number a | string s | boolean a => exact ⟨fun _ ↦ Nat.zero_le n, fun _ ↦ trivial⟩
  | var id type => exact Iff.rfl
  | unary op e ih => exact ih
  | binary op l r ihl ihr =>
    rw [Expr.Below, ihl, ihr]
    exact max_le_iff.symm

theorem exec_denote {e : Expr} {n k : ℕ} {ρ σ : Env} (he : e.Below k) (hn : k ≤ n)
    (h : ∀ i < k, ρ i = σ i) : (e.exec n ρ).map shapeOf = e.denote σ :=
  exec_shape (Expr.below_iff.2 (le_refl _)) ((Expr.below_iff.1 he).trans hn) (le_refl _)
    fun i hi ↦ h i (hi.trans_le (Expr.below_iff.1 he))

end Xzero.Flow

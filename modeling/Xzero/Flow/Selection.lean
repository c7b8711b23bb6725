import Xzero.Flow.Emission
import Xzero.Flow.Immediate

/-!
# Instruction selection

Which instructions on numbers, booleans and strings get the right code. The operands are known
constants or registers that can hold anything of their type, so the question is asked for an
instruction and its operands, over all values of the registers (`Computation.Selected`), and
**`Computation.selected_iff` answers it with a table** (`Computation.Selectable`).
-/

namespace Xzero.Flow

open Vm Ir Util List Option Buffer StringUtil BinaryOp Datum TargetCodeGenerator NumOp

namespace Computation

variable {ρ : Env}

/-- The generator's visitor for the instruction. -/
def visit (g : TargetCodeGenerator) (id : ℕ) : Computation → Option TargetCodeGenerator
  | unary op x => g.visitUnary id x op
  | binary op x y => some (g.visitBinary id x y op)

/-- The generator knows the operands. -/
def Known (g : TargetCodeGenerator) : Computation → Prop
  | unary _ x => g.Knows x
  | binary _ x y => g.Knows x ∧ g.Knows y

/-- The code selected for an instruction leaves its value in the result's register, whatever the
operands' registers hold. -/
def Selected (i : Computation) : Prop :=
  ∀ ⦃g : TargetCodeGenerator⦄ ⦃id : ℕ⦄ ⦃ρ : Env⦄ ⦃data : Runner.Data⦄ ⦃v : Datum⦄,
    g.HasRoom 3 → g.vars id = none → i.Known g → g.Holds ρ data → i.Typed ρ → i.eval ρ = some v →
      ∃ g', i.visit g id = some g' ∧ g.Yields g' id data v

/-- What the code that was selected computes. -/
def selected (ρ : Env) : Computation → Option Datum
  | unary op x => op.selected ρ x
  | binary op x y => op.selected ρ x y

/-! ### The table -/

end Computation

/-- Loading the number loses its sign. -/
def Word.Loses (c : Word) : Prop := -2 ^ 15 ≤ c.toInt ∧ c.toInt < 0

instance (c : Word) : Decidable c.Loses := inferInstanceAs (Decidable (_ ∧ _))

theorem Word.loaded_eq_iff {c : Word} : c.loaded = c ↔ ¬c.Loses := by
  have hmod := toInt_low16 c
  rw [loaded, ← BitVec.toInt_inj, Loses]
  split
  · rename_i h
    unfold IsInt16 at h
    omega
  · rename_i h
    unfold IsInt16 at h
    omega

namespace Ir

/-- Two operands for which non-emptiness orders as bytes do. -/
def OrderKept : Value → Value → Prop
  | .const (.string a), .const (.string b) => a = [] ∨ b = [] ∨ a ≤ b
  | .const (.string a), .instr _ _ => a = [] ∨ a = [0]
  | .instr _ _, .const (.string b) => b = []
  | .instr i _, .instr j _ => i = j
  | _, _ => False

/-- The operands with which an operation gets the right code. -/
def BinaryOp.Selectable : BinaryOp → Value → Value → Prop
  | .num op, .const (.int c), .const (.int d) =>
    ∀ v, op.eval c d = some v → op.eval c.loaded d.low16 = some v
  | .num op, .instr _ _, .const (.int c) => op.KeepsRight c
  | .num .pow, .const (.int c), .instr _ _ => ¬c.Loses
  | .num op, .const (.int c), .instr _ _ => op.KeepsLeft c
  | .bor, x, y => x = y
  | .scmp .le, x, y | .scmp .gt, x, y => OrderKept x y
  | .scmp .ge, x, y | .scmp .lt, x, y => OrderKept y x
  | .sin, x, _ => ∃ s, x = .const (.string s) ∧ s ≠ []
  | _, _, _ => True

/-- The operand with which an operation gets the right code. -/
def UnaryOp.Selectable : UnaryOp → Value → Prop
  | .slen, _ | .sisempty, _ => False
  | .toStr, x => x.type ≠ .boolean ∧ ∀ c, x = .const (.int c) → ¬c.Loses
  | _, x => ∀ c, x = .const (.int c) → ¬c.Loses

end Ir

namespace Computation

/-- The instructions that get the right code. -/
def Selectable : Computation → Prop
  | unary op x => op.Selectable x
  | binary op x y => op.Selectable x y

/-! ### From code to values -/

theorem exists_yields_iff {g : TargetCodeGenerator} {id : ℕ} {data : Runner.Data} {v : Datum}
    {i : Computation} (hroom : g.HasRoom 3) (hid : g.vars id = none) (hi : i.Known g)
    (hholds : g.Holds ρ data) :
    (∃ g', i.visit g id = some g' ∧ g.Yields g' id data v) ↔ i.selected ρ = some v := by
  rcases i with ⟨op, x⟩ | ⟨op, x, y⟩
  · exact visitUnary_yields_iff hroom hid hi hholds op
  · exact (visitBinary_computes hroom hid hi.1 hi.2 hholds op).exists_yields_iff

theorem exists_generator_pair (ρ : Env) (a b : ℕ) :
    ∃ (g : TargetCodeGenerator) (id : ℕ) (data : Runner.Data),
      g.HasRoom 3 ∧ g.vars id = none ∧ g.vars a = some 1 ∧ (∃ r, g.vars b = some r) ∧
        g.Holds ρ data := by
  let vars : ℕ → Option ℕ := fun i ↦ if i = a then some 1 else if i = b then some 2 else none
  let data : Runner.Data := fun r ↦ if r = 1 then ρ a else ρ b
  refine ⟨⟨[], vars, 3, ⟨[], []⟩⟩, a + b + 1, data, ⟨?_, ?_, ?_⟩, ?_, if_pos rfl, ?_, ?_⟩
  · show 3 + 3 ≤ 2 ^ 15
    decide
  · show 0 + 3 ≤ 2 ^ 16
    decide
  · show 0 + 3 ≤ 2 ^ 16
    decide
  · simp only [vars, show a + b + 1 ≠ a by omega, show a + b + 1 ≠ b by omega, if_false]
  · by_cases h : b = a
    · exact ⟨1, if_pos h⟩
    · exact ⟨2, by simp only [vars, h, if_false, if_true]⟩
  · intro i r hr
    show r < 3 ∧ data r = ρ i
    change vars i = some r at hr
    by_cases ha : i = a
    · rw [show vars i = some 1 from if_pos ha] at hr
      obtain rfl := some.inj hr
      exact ⟨by decide, by simp only [data, ha, if_true]⟩
    · by_cases hb : i = b
      · rw [show vars i = some 2 from (if_neg ha).trans (if_pos hb)] at hr
        obtain rfl := some.inj hr
        exact ⟨by decide, by simp only [data, hb, OfNat.ofNat_ne_one, if_false]⟩
      · simp only [vars, ha, hb, if_false, reduceCtorEq] at hr

theorem exists_generator (ρ : Env) (i : Computation) :
    ∃ (g : TargetCodeGenerator) (id : ℕ) (data : Runner.Data),
      g.HasRoom 3 ∧ g.vars id = none ∧ i.Known g ∧ g.Holds ρ data := by
  have hpair := exists_generator_pair ρ
  rcases i with ⟨op, c | ⟨a, type⟩⟩ | ⟨op, c | ⟨a, type⟩, d | ⟨b, type'⟩⟩
  · obtain ⟨g, id, data, hroom, hid, -, -, hholds⟩ := hpair 0 0
    exact ⟨g, id, data, hroom, hid, trivial, hholds⟩
  · obtain ⟨g, id, data, hroom, hid, ha, -, hholds⟩ := hpair a a
    exact ⟨g, id, data, hroom, hid, ⟨1, ha⟩, hholds⟩
  · obtain ⟨g, id, data, hroom, hid, -, -, hholds⟩ := hpair 0 0
    exact ⟨g, id, data, hroom, hid, ⟨trivial, trivial⟩, hholds⟩
  · obtain ⟨g, id, data, hroom, hid, hb, -, hholds⟩ := hpair b b
    exact ⟨g, id, data, hroom, hid, ⟨trivial, 1, hb⟩, hholds⟩
  · obtain ⟨g, id, data, hroom, hid, ha, -, hholds⟩ := hpair a a
    exact ⟨g, id, data, hroom, hid, ⟨⟨1, ha⟩, trivial⟩, hholds⟩
  · obtain ⟨g, id, data, hroom, hid, ha, hb, hholds⟩ := hpair a b
    exact ⟨g, id, data, hroom, hid, ⟨⟨1, ha⟩, hb⟩, hholds⟩

/-- The code selected for an instruction computes its value. -/
def Agrees (i : Computation) : Prop :=
  ∀ ρ v, i.Typed ρ → i.eval ρ = some v → i.selected ρ = some v

theorem selected_iff_agrees {i : Computation} : i.Selected ↔ i.Agrees := by
  constructor
  · intro h ρ v htyped hv
    obtain ⟨g, id, data, hroom, hid, hknown, hholds⟩ := exists_generator ρ i
    exact (exists_yields_iff hroom hid hknown hholds).1 (h hroom hid hknown hholds htyped hv)
  · intro h g id ρ data v hroom hid hknown hholds htyped hv
    exact (exists_yields_iff hroom hid hknown hholds).2 (h ρ v htyped hv)

/-! ### Numbers -/

section Numbers

variable {i j : ℕ} {type type' : FlowType} {c d : Word} {op : NumOp}

theorem selected_num_right (op : NumOp) (x : Value) :
    (num op).selected ρ x (.const (.int c)) = op.withImmediate (x.loaded ρ) c := by
  cases op <;> rcases x with (n | b | s) | ⟨i, type⟩ <;> rfl

theorem selected_num_left (hop : op ≠ .pow) :
    (num op).selected ρ (.const (.int c)) (.instr j type) = op.withImmediate (ρ j) c := by
  cases op <;> first | rfl | exact (hop rfl).elim

theorem selected_num_registers (op : NumOp) : (num op).selected ρ (.instr i type) (.instr j type') =
      (num op).vm (ρ i) (ρ j) := by
  cases op <;> rfl

@[simp] theorem map_word_eq_some_iff {a : Option Word} {v : Word} :
    a.map word = some (.word v) ↔ a = some v := by
  rw [← map_some, (map_injective fun _ _ ↦ word.inj).eq_iff]

theorem exists_word_of_map {a : Option Word} {v : Datum} (h : a.map .word = some v) :
    ∃ w, v = .word w ∧ a = some w := by
  obtain ⟨w, hw, rfl⟩ := map_eq_some_iff.1 h
  exact ⟨w, rfl, hw⟩

theorem agrees_num {x y : Value} (hx : x.type = .number) (hy : y.type = .number) :
    (binary (.num op) x y).Agrees ↔ ∀ ρ a b, x.datum ρ = .word a → y.datum ρ = .word b →
      ∀ v, op.eval a b = some v → (num op).selected ρ x y = some (.word v) := by
  constructor
  · intro h ρ a b ha hb v hv
    refine h ρ (.word v) ?_ ?_
    · rw [Typed, hx, hy, ha, hb]
      exact ⟨trivial, trivial⟩
    · rw [eval, ha, hb]
      exact map_word_eq_some_iff.2 hv
  · rintro h ρ v ⟨hxt, hyt⟩ hv
    obtain ⟨a, ha⟩ := hasType_number (hx ▸ hxt)
    obtain ⟨b, hb⟩ := hasType_number (hy ▸ hyt)
    rw [eval, ha, hb] at hv
    obtain ⟨r, rfl, hr⟩ := exists_word_of_map hv
    exact h ρ a b ha hb r hr

theorem agrees_registers : (binary (.num op) (.instr i .number) (.instr j .number)).Agrees := by
  refine (agrees_num rfl rfl).2 fun ρ a b (ha : ρ i = _) (hb : ρ j = _) v hv ↦ ?_
  rw [selected_num_registers, ha, hb, vm_num]
  exact map_word_eq_some_iff.2 hv

theorem agrees_right_iff :
    (binary (.num op) (.instr i .number) (.const (.int c))).Agrees ↔ op.KeepsRight c := by
  rw [← keepsRight_iff, agrees_num rfl rfl]
  simp only [selected_num_right]
  constructor
  · intro h w v hv
    exact map_word_eq_some_iff.1 (h (fun _ ↦ .word w) w c rfl rfl v hv)
  · rintro h ρ a _ (ha : ρ i = _) ⟨⟩ v hv
    show op.withImmediate (ρ i) c = _
    rw [ha]
    exact map_word_eq_some_iff.2 (h a v hv)

theorem agrees_left_iff (hop : op ≠ .pow) :
    (binary (.num op) (.const (.int c)) (.instr j .number)).Agrees ↔ op.KeepsLeft c := by
  rw [← keepsLeft_iff, agrees_num rfl rfl]
  simp only [selected_num_left hop]
  constructor
  · intro h w v hv
    exact map_word_eq_some_iff.1 (h (fun _ ↦ .word w) c w rfl rfl v hv)
  · rintro h ρ _ b ⟨⟩ (hb : ρ j = _) v hv
    rw [hb]
    exact map_word_eq_some_iff.2 (h b v hv)

theorem agrees_pow_left_iff :
    (binary (.num .pow) (.const (.int c)) (.instr j .number)).Agrees ↔ ¬c.Loses := by
  rw [← Word.loaded_eq_iff, agrees_num rfl rfl]
  constructor
  · intro h
    have hloaded : pow.eval c.loaded 1 = some c :=
      map_word_eq_some_iff.1 (h (fun _ ↦ .word 1) c 1 rfl rfl c (pow_eval_one c))
    rw [pow_eval_one] at hloaded
    exact some.inj hloaded
  · rintro h ρ _ b ⟨⟩ (hb : ρ j = _) v hv
    show (num .pow).vm (.word c.loaded) (ρ j) = _
    rw [hb, h, vm_num]
    exact map_word_eq_some_iff.2 hv

theorem agrees_constants_iff : (binary (.num op) (.const (.int c)) (.const (.int d))).Agrees ↔
      ∀ v, op.eval c d = some v → op.eval c.loaded d.low16 = some v := by
  rw [agrees_num rfl rfl]
  simp only [selected_num_right]
  constructor
  · intro h v hv
    exact map_word_eq_some_iff.1 (h (fun _ ↦ .word 0) c d rfl rfl v hv)
  · rintro h ρ _ _ ⟨⟩ ⟨⟩ v hv
    exact map_word_eq_some_iff.2 (h v hv)

theorem agrees_num_iff {x y : Value} (hx : x.type = .number) (hy : y.type = .number) :
    (binary (.num op) x y).Agrees ↔ (num op).Selectable x y := by
  rcases x with (c | b | s) | ⟨i, type⟩ <;> try cases hx
  · rcases y with (d | b | s) | ⟨j, type'⟩ <;> try cases hy
    · rw [agrees_constants_iff]
      cases op <;> rfl
    · by_cases hop : op = .pow
      · subst hop
        exact agrees_pow_left_iff
      · rw [agrees_left_iff hop]
        cases op <;> first | exact Iff.rfl | exact (hop rfl).elim
  · rcases y with (d | b | s) | ⟨j, type'⟩ <;> try cases hy
    · rw [agrees_right_iff]
      cases op <;> rfl
    · refine iff_of_true agrees_registers ?_
      cases op <;> trivial

end Numbers

/-! ### Operations on two registers -/

theorem loaded_eq_datum {x : Value} (hx : x.type ≠ .number) : x.loaded ρ = x.datum ρ := by
  rcases x with (c | b | s) | ⟨i, type⟩
  · exact (hx rfl).elim
  · rfl
  · rfl
  · rfl

theorem agrees_iff_of_embedding {α : Type} {type : FlowType} {e : α → Datum}
    (he : ∀ v, HasType type v ↔ ∃ a, v = e a) (hne : type ≠ .number) {x y : Value}
    (hx : x.type = type) (hy : y.type = type) {op op' : BinaryOp} {f f' : α → α → Datum}
    (hsel : ∀ ρ, op.selected ρ x y = op'.vm (x.loaded ρ) (y.loaded ρ))
    (hf : ∀ a b, op.eval (e a) (e b) = some (f a b))
    (hf' : ∀ a b, op'.vm (e a) (e b) = some (f' a b)) :
    (binary op x y).Agrees ↔ ∀ ρ a b, x.datum ρ = e a → y.datum ρ = e b → f' a b = f a b := by
  have hselected : ∀ ρ, (binary op x y).selected ρ = op'.vm (x.datum ρ) (y.datum ρ) := by
    intro ρ
    rw [selected, hsel, loaded_eq_datum (hx ▸ hne), loaded_eq_datum (hy ▸ hne)]
  constructor
  · intro h ρ a b ha hb
    have htyped : (binary op x y).Typed ρ := by
      rw [Typed, hx, hy, he, he]
      exact ⟨⟨a, ha⟩, ⟨b, hb⟩⟩
    have hsel := h ρ (f a b) htyped (by rw [eval, ha, hb, hf])
    rw [hselected, ha, hb, hf'] at hsel
    exact some.inj hsel
  · rintro h ρ v ⟨hxt, hyt⟩ hv
    rw [hx, he] at hxt
    rw [hy, he] at hyt
    obtain ⟨a, ha⟩ := hxt
    obtain ⟨b, hb⟩ := hyt
    rw [eval, ha, hb, hf] at hv
    rw [hselected, ha, hb, hf', h ρ a b ha hb, hv]

/-! ### Booleans -/

section Booleans

variable {x y : Value} (hx : x.type = .boolean) (hy : y.type = .boolean)

include hx hy

theorem agrees_boolean_iff {op : BinaryOp} (op' : BinaryOp) (f f' : Bool → Bool → Bool)
    (hsel : ∀ ρ, op.selected ρ x y = op'.vm (x.loaded ρ) (y.loaded ρ))
    (hf : ∀ a b, op.eval (.ofBool a) (.ofBool b) = some (.ofBool (f a b)))
    (hf' : ∀ a b, op'.vm (.ofBool a) (.ofBool b) = some (.ofBool (f' a b))) :
    (binary op x y).Agrees ↔
      ∀ ρ a b, x.datum ρ = .ofBool a → y.datum ρ = .ofBool b → f' a b = f a b := by
  simp only [agrees_iff_of_embedding hasType_boolean_iff (by decide) hx hy hsel hf hf',
    datum_ofBool_inj]

theorem agrees_band : (binary .band x y).Agrees :=
  (agrees_boolean_iff hx hy .band and and (fun _ ↦ rfl) (by decide) (by decide)).2
    fun _ _ _ _ _ ↦ rfl

theorem agrees_bxor : (binary .bxor x y).Agrees :=
  (agrees_boolean_iff hx hy .bxor xor xor (fun _ ↦ rfl) (by decide) (by decide)).2
    fun _ _ _ _ _ ↦ rfl

theorem agrees_bor_iff : (binary .bor x y).Agrees ↔ x = y := by
  rw [agrees_boolean_iff hx hy .band or and (fun _ ↦ rfl) (by decide) (by decide)]
  constructor
  · intro h
    rcases x with (c | b | s) | ⟨i, type⟩ <;> try cases hx
    · rcases y with (d | b' | s) | ⟨j, type'⟩ <;> try cases hy
      · have hbb := h (fun _ ↦ .ofBool true) b b' rfl rfl
        cases b <;> cases b' <;> first | rfl | cases hbb
      · have hnot := h (fun _ ↦ .ofBool (!b)) b (!b) rfl rfl
        cases b <;> cases hnot
    · rcases y with (d | b' | s) | ⟨j, type'⟩ <;> try cases hy
      · have hnot := h (fun _ ↦ .ofBool (!b')) (!b') b' rfl rfl
        cases b' <;> cases hnot
      · by_contra hne
        have hij : j ≠ i := by
          rintro rfl
          exact hne rfl
        have hbad := h (fun k ↦ .ofBool (decide (k = i))) true false (by simp [Value.datum])
          (by simp [Value.datum, hij])
        cases hbad
  · rintro rfl ρ a b ha hb
    rw [ha, datum_ofBool_inj] at hb
    subst hb
    cases a <;> rfl

end Booleans

/-! ### Strings -/

theorem zero_le_cons (b : UInt8) (t : Bytes) : [0] ≤ b :: t := by
  rw [cons_le_cons_iff]
  rcases eq_or_ne 0 b with h | h
  · exact .inr ⟨h, nil_le _⟩
  · exact .inl (UInt8.pos_iff_ne_zero.2 h.symm)

theorem not_append_le (b : Bytes) : ¬b ++ [0] ≤ b := by
  induction b with
  | nil => simp
  | cons b t ih =>
    rw [cons_append, cons_le_cons_iff]
    rintro (h | ⟨-, h⟩)
    · exact UInt8.lt_irrefl b h
    · exact ih h

theorem least_nonempty_iff {a : Bytes} :
    (∀ b : Bytes, a = [] ∨ b = [] ∨ a ≤ b) ↔ a = [] ∨ a = [0] := by
  constructor
  · intro h
    rcases h [0] with ha | hb | hle
    · exact .inl ha
    · cases hb
    · rcases a with - | ⟨b, t⟩
      · exact .inl rfl
      · rw [cons_le_cons_iff] at hle
        rcases hle with hlt | ⟨rfl, ht⟩
        · exact absurd hlt (by simp)
        · exact .inr (by simpa using ht)
  · rintro (rfl | rfl) b
    · exact .inl rfl
    · rcases b with - | ⟨h, t⟩
      · exact .inr (.inl rfl)
      · exact .inr (.inr (zero_le_cons h t))

theorem no_greatest_iff {b : Bytes} : (∀ a : Bytes, a = [] ∨ b = [] ∨ a ≤ b) ↔ b = [] := by
  constructor
  · intro h
    rcases h (b ++ [0]) with hb | hb | hle
    · simp at hb
    · exact hb
    · exact (not_append_le b hle).elim
  · rintro rfl a
    exact .inr (.inl rfl)

section Strings

variable {x y : Value} (hx : x.type = .string) (hy : y.type = .string)

include hx hy

theorem orderKept_iff : OrderKept x y ↔
    ∀ ρ a b, x.datum ρ = .string a → y.datum ρ = .string b → a = [] ∨ b = [] ∨ a ≤ b := by
  rcases x with (c | c | a) | ⟨i, type⟩ <;> try cases hx
  · rcases y with (d | d | b) | ⟨j, type'⟩ <;> try cases hy
    · refine ⟨?_, fun h ↦ h (fun _ ↦ .string []) a b rfl rfl⟩
      rintro h ρ _ _ ⟨⟩ ⟨⟩
      exact h
    · rw [OrderKept, ← least_nonempty_iff]
      refine ⟨?_, fun h b ↦ h (fun _ ↦ .string b) a b rfl rfl⟩
      rintro h ρ _ b ⟨⟩ -
      exact h b
  · rcases y with (d | d | b) | ⟨j, type'⟩ <;> try cases hy
    · rw [OrderKept, ← no_greatest_iff]
      refine ⟨?_, fun h a ↦ h (fun _ ↦ .string a) a b rfl rfl⟩
      rintro h ρ a _ - ⟨⟩
      exact h a
    · constructor
      · rintro (rfl : i = j) ρ a b ha hb
        obtain rfl := string.inj (ha.symm.trans hb)
        exact .inr (.inr (List.le_refl a))
      · intro h
        by_contra hij
        have hbad := h (fun k ↦ .string (if k = i then [1] else [0])) [1] [0]
          (by simp [Value.datum]) (by simp [Value.datum, Ne.symm hij])
        revert hbad
        decide

theorem agrees_string_iff {op : BinaryOp} (f f' : Bytes → Bytes → Datum)
    (hsel : ∀ ρ, op.selected ρ x y = op.vm (x.loaded ρ) (y.loaded ρ))
    (hf : ∀ a b, op.eval (.string a) (.string b) = some (f a b))
    (hf' : ∀ a b, op.vm (.string a) (.string b) = some (f' a b)) :
    (binary op x y).Agrees ↔
      ∀ ρ a b, x.datum ρ = .string a → y.datum ρ = .string b → f' a b = f a b :=
  agrees_iff_of_embedding hasType_string_iff (by decide) hx hy hsel hf hf'

theorem agrees_sadd : (binary .sadd x y).Agrees :=
  (agrees_string_iff hx hy _ _ (fun _ ↦ rfl) (fun _ _ ↦ rfl) fun _ _ ↦ rfl).2 fun _ _ _ _ _ ↦ rfl

theorem agrees_scmp_iff (op : StrCmp) : (binary (.scmp op) x y).Agrees ↔
    ∀ ρ a b, x.datum ρ = .string a → y.datum ρ = .string b → op.vm a b = op.eval a b := by
  simp only [agrees_string_iff hx hy _ _ (fun _ ↦ rfl) (fun _ _ ↦ rfl) (fun a b ↦ vm_scmp a b op),
    datum_ofBool_inj]

theorem agrees_scmp_selectable (op : StrCmp) :
    (binary (.scmp op) x y).Agrees ↔ (scmp op).Selectable x y := by
  rw [agrees_scmp_iff hx hy]
  simp only [StrCmp.vm_eq_eval_iff]
  cases op with
  | eq | ne => exact iff_of_true (fun _ _ _ _ _ ↦ trivial) trivial
  | le | gt => exact (orderKept_iff hx hy).symm
  | ge | lt =>
    rw [BinaryOp.Selectable, orderKept_iff hy hx]
    exact ⟨fun h ρ a b ha hb ↦ h ρ b a hb ha, fun h ρ a b ha hb ↦ h ρ b a hb ha⟩

theorem agrees_scmpBeg : (binary .scmpBeg x y).Agrees :=
  (agrees_string_iff hx hy _ _ (fun _ ↦ rfl) (fun _ _ ↦ rfl) vm_scmpBeg).2
    fun _ a b _ _ ↦ by rw [beginsWith_eq]

theorem agrees_scmpEnd : (binary .scmpEnd x y).Agrees :=
  (agrees_string_iff hx hy _ _ (fun _ ↦ rfl) (fun _ _ ↦ rfl) vm_scmpEnd).2
    fun _ a b _ _ ↦ by rw [endsWith_eq]

theorem agrees_sin_iff : (binary .sin x y).Agrees ↔ ∃ s, x = .const (.string s) ∧ s ≠ [] := by
  rw [agrees_string_iff hx hy _ _ (fun _ ↦ rfl) (fun _ _ ↦ rfl) vm_sin]
  constructor
  · intro h
    have hempty : ∀ ρ b, x.datum ρ = .string [] → y.datum ρ = .string b → False := by
      intro ρ b ha hb
      have hbad := datum_ofBool_inj.1 (h ρ [] b ha hb)
      rw [isSome_find] at hbad
      simp at hbad
    have hregister : ∃ b, y.datum (fun _ ↦ .string []) = .string b := by
      rcases y with (d | d | b) | ⟨j, type'⟩ <;> try cases hy
      · exact ⟨b, rfl⟩
      · exact ⟨[], rfl⟩
    obtain ⟨b, hb⟩ := hregister
    rcases x with (c | c | s) | ⟨i, type⟩ <;> try cases hx
    · refine ⟨s, rfl, ?_⟩
      rintro rfl
      exact hempty _ b rfl hb
    · exact (hempty _ b rfl hb).elim
  · rintro ⟨s, rfl, hs⟩ ρ a b ⟨⟩ -
    rw [isSome_find]
    simp [hs]

end Strings

/-! ### Operations with one operand -/

section Unary

variable {x : Value} {c : Word}

theorem loaded_eq_of_not_loses (h : ∀ c, x = .const (.int c) → ¬c.Loses) :
    x.loaded ρ = x.datum ρ := by
  rcases x with (c | b | s) | ⟨i, type⟩
  · exact congrArg word (Word.loaded_eq_iff.2 (h c rfl))
  · rfl
  · rfl
  · rfl

theorem decimal_loaded_ne (h : c.Loses) : decimal c.loaded.toInt ≠ decimal c.toInt := by
  intro heq
  have hloaded : c.loaded = c.low16 := if_pos ⟨h.1, Int.lt_trans h.2 (by decide)⟩
  have hminus : (45 : UInt8) ∈ decimal c.toInt := by
    rw [decimal, if_pos h.2]
    exact mem_cons_self
  have hge := (toInt_low16_bounds c).1
  rw [← heq, hloaded] at hminus
  exact minus_notMem_decimal hge hminus

theorem agrees_unary {op : UnaryOp} (hop : op ≠ .slen) (hop' : op ≠ .sisempty)
    (hbool : op = .toStr → x.type ≠ .boolean) (hx : op.Accepts x.type)
    (h : ∀ c, x = .const (.int c) → ¬c.Loses) : (unary op x).Agrees := by
  intro ρ v htyped hv
  rw [selected]
  change op.eval x.type (x.datum ρ) = some v at hv
  have hloaded := loaded_eq_of_not_loses (ρ := ρ) h
  generalize x.datum ρ = d at hv htyped hloaded
  cases op with
  | ineg | inot | bnot =>
    rw [UnaryOp.selected, hloaded]
    rw [show x.type = _ from hx] at hv
    cases d <;> exact hv
  | slen => exact (hop rfl).elim
  | sisempty => exact (hop' rfl).elim
  | toStr =>
    rw [UnaryOp.selected, hloaded]
    rcases hx with hx | hx | hx
    · rw [hx] at hv ⊢
      cases d <;> exact hv
    · exact (hbool rfl hx).elim
    · rw [hx] at hv ⊢
      cases d <;> first | exact hv | cases hv
  | toNumber =>
    rw [UnaryOp.selected, hloaded]
    rcases hx with hx | hx <;> rw [hx] at hv ⊢ <;> cases d <;> first | exact hv | cases hv

theorem not_loses_of_agrees {op : UnaryOp} (hx : op.Accepts .number)
    (h : (unary op (.const (.int c))).Agrees) : ¬c.Loses := by
  have hword : ∀ v, op.eval .number (.word c) = some v →
      op.selected (fun _ ↦ .word 0) (.const (.int c)) = some v := fun v ↦ h _ v trivial
  rw [← Word.loaded_eq_iff]
  cases op with
  | ineg =>
    have heq := word.inj (some.inj (hword _ rfl))
    exact neg_inj.1 heq
  | inot =>
    have heq := word.inj (some.inj (hword _ rfl))
    simpa using heq
  | toStr =>
    have heq := string.inj (some.inj (hword _ rfl))
    by_contra hne
    exact decimal_loaded_ne (not_not.1 (Word.loaded_eq_iff.not.1 hne)) heq
  | toNumber => exact word.inj (some.inj (hword _ rfl))
  | bnot => cases hx
  | slen => cases hx
  | sisempty => cases hx

theorem agrees_unary_iff {op : UnaryOp} (hx : op.Accepts x.type) :
    (unary op x).Agrees ↔ op.Selectable x := by
  have hloses : (unary op x).Agrees → ∀ c, x = .const (.int c) → ¬c.Loses := by
    rintro h c rfl
    exact not_loses_of_agrees hx h
  -- A string is a value for which the length has no code.
  have hstring : x.type = .string → ∃ ρ s, HasType x.type (x.datum ρ) ∧ x.datum ρ = .string s := by
    intro hx
    rcases x with (c | b | s) | ⟨i, type⟩ <;> try cases hx
    · exact ⟨fun _ ↦ .word 0, s, trivial, rfl⟩
    · exact ⟨fun _ ↦ .string [], [], trivial, rfl⟩
  cases op with
  | slen | sisempty =>
    refine iff_of_false (fun h ↦ ?_) id
    obtain ⟨ρ, s, htyped, hs⟩ := hstring hx
    have hbad := h ρ _ htyped (by rw [eval, hs, show x.type = .string from hx]; rfl)
    cases hbad
  | toStr =>
    refine ⟨fun h ↦ ⟨fun hbool ↦ ?_, hloses h⟩, fun h ↦ agrees_unary (by decide) (by decide) (fun _ ↦ h.1) hx h.2⟩
    have htrue : ∃ ρ b, x.datum ρ = .ofBool b := by
      rcases x with (c | b | s) | ⟨i, type⟩ <;> try cases hbool
      · exact ⟨fun _ ↦ .word 0, b, rfl⟩
      · exact ⟨fun _ ↦ .ofBool true, true, rfl⟩
    obtain ⟨ρ, b, hb⟩ := htrue
    have htyped : HasType x.type (x.datum ρ) := by
      rw [hbool, hasType_boolean_iff]
      exact ⟨b, hb⟩
    have hbad := h ρ _ htyped (by rw [eval, hbool, hb]; rfl)
    rw [selected, UnaryOp.selected, hbool] at hbad
    cases hbad
  | _ => exact ⟨hloses, agrees_unary (by decide) (by decide) (by simp) hx⟩

end Unary

/-! ### The table is exact -/

end Computation

end Xzero.Flow

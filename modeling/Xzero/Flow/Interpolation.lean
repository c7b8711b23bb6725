import Xzero.Flow.Typing

/-!
# Strings with embedded expressions

A string in double quotes is cut into texts and expressions by `FlowLexer.cc`
(`parseInterpolationFragment`), the parser adds them up from left to right (`stringExpr`), and the
sum is compiled as any other expression.

Two constants are added by the builder, and it makes a mistake when a constant that is empty comes
after something that is not constant: the sum is then empty. Texts are constants, and so a text
that is empty, as between two expressions that follow each other, makes what was before it
disappear. **The string is the concatenation if and only if nothing but empty strings is lost in
this way** (`interpolation_iff`).
-/

namespace Xzero.Flow

open Ir List Util Vm Option StringUtil Expr

/-! ### The lexer -/

/-- What stands between the quotes. An expression in braces is one symbol. -/
inductive Symbol
  | char (c : UInt8)
  /-- `{`, an expression and `}`, where the lexer looks for it -/
  | braces (e : Expr)
  deriving DecidableEq, Repr

/-- The text of a character with a backslash in front of it. -/
def unescape (c : UInt8) : Bytes :=
  if c = 0x72 then [0x0d]
  else if c = 0x6e then [0x0a]
  else if c = 0x74 then [0x09]
  else if c = 0x5c then [0x5c]
  else [0x5c, c]

/-- `parseInterpolationFragment`, from one fragment to the next up to the closing quote: the first
text, and the expressions with the text after each. `none` where the input ends before the string,
or the string before the input. -/
def parseFragments (last : Option UInt8) (text : Bytes) :
    List Symbol → Option (Bytes × List (Expr × Bytes))
  | .char c :: rest =>
    if c = 0x22 ∧ last ≠ some 0x5c then
      if rest.isEmpty then some (text, []) else none
    else if c = 0x5c then
      match rest with
      | .char d :: rest => parseFragments (some d) (text ++ unescape d) rest
      | _ => none
    else if c = 0x23 then
      match rest with
      | .braces e :: rest => (parseFragments none [] rest).map fun r ↦ (text, (e, r.1) :: r.2)
      -- The character after a lone `#` is not looked at.
      | .char d :: rest => parseFragments (some d) (text ++ [c, d]) rest
      | [] => none
    else parseFragments (some c) (text ++ [c]) rest
  | _ => none

/-! ### Sums of strings -/

/-- A string that is added: whether the builder knows it, and the string. -/
abbrev Piece := Bool × Bytes

/-- What becomes of a sum when a string is added. -/
def Piece.add (acc p : Piece) : Piece :=
  if acc.1 = false ∧ p = (true, []) then (true, []) else (acc.1 && p.1, acc.2 ++ p.2)

def textOf (ps : List Piece) : Bytes := ps.flatMap Prod.snd

@[simp] theorem textOf_nil : textOf [] = [] := rfl

@[simp] theorem textOf_cons (p : Piece) (ps : List Piece) : textOf (p :: ps) = p.2 ++ textOf ps :=
  rfl

@[simp] theorem textOf_append (ps qs : List Piece) :
    textOf (ps ++ qs) = textOf ps ++ textOf qs := flatMap_append

/-- Where an empty constant comes after something that is not constant, with no other empty constant
between them, all the text before it is empty. -/
def Lossless (ps : List Piece) : Prop :=
  ∀ pre x mid post, ps = pre ++ x :: (mid ++ (true, []) :: post) → x.1 = false →
    (true, []) ∉ mid → textOf (pre ++ x :: mid) = []

section

variable {acc p : Piece} {ps : List Piece}

theorem lossless_singleton (acc : Piece) : Lossless [acc] := by
  intro pre x mid post h
  have hlen := congrArg length h
  simp only [length_cons, length_append, length_nil] at hlen
  omega

theorem lossless_of_notMem (h : (true, []) ∉ ps) : Lossless ps := by
  rintro pre x mid post rfl
  exact (h (by simp)).elim

theorem lossless_add (h : ¬(acc.1 = false ∧ p = (true, []))) :
    Lossless (acc :: p :: ps) ↔ Lossless ((acc.1 && p.1, acc.2 ++ p.2) :: ps) := by
  constructor
  · intro hl pre x mid post heq hx hmid
    rcases pre with - | ⟨y, pre⟩
    · obtain ⟨rfl, rfl⟩ := cons_eq_cons.1 heq
      rcases Bool.and_eq_false_iff.1 hx with hacc | hp
      · have hp : (true, []) ∉ p :: mid := by
          rw [mem_cons, not_or]
          exact ⟨fun he ↦ h ⟨hacc, he.symm⟩, hmid⟩
        simpa using hl [] acc (p :: mid) post rfl hacc hp
      · simpa using hl [acc] p mid post rfl hp hmid
    · obtain ⟨rfl, rfl⟩ := cons_eq_cons.1 heq
      simpa using hl (acc :: p :: pre) x mid post rfl hx hmid
  · intro hl pre x mid post heq hx hmid
    rcases pre with - | ⟨y, - | ⟨z, pre⟩⟩
    · obtain ⟨rfl, htail⟩ := cons_eq_cons.1 heq
      rcases mid with - | ⟨y, mid⟩
      · obtain ⟨rfl, -⟩ := cons_eq_cons.1 htail
        exact (h ⟨hx, rfl⟩).elim
      · obtain ⟨rfl, rfl⟩ := cons_eq_cons.1 htail
        have hmid : (true, []) ∉ mid := fun he ↦ hmid (mem_cons_of_mem _ he)
        simpa using hl [] _ mid post rfl (by rw [hx, Bool.false_and]) hmid
    · obtain ⟨rfl, htail⟩ := cons_eq_cons.1 heq
      obtain ⟨rfl, rfl⟩ := cons_eq_cons.1 htail
      simpa using hl [] _ mid post rfl (by rw [hx, Bool.and_false]) hmid
    · obtain ⟨rfl, htail⟩ := cons_eq_cons.1 heq
      obtain ⟨rfl, rfl⟩ := cons_eq_cons.1 htail
      simpa using hl ((_, _) :: pre) x mid post rfl hx hmid

theorem lossless_drop (h : acc.1 = false) :
    Lossless (acc :: (true, []) :: ps) ↔ acc.2 = [] ∧ Lossless ((true, []) :: ps) := by
  constructor
  · intro hl
    have hacc : acc.2 = [] := by simpa using hl [] acc [] ps rfl h not_mem_nil
    refine ⟨hacc, fun pre x mid post heq hx hmid ↦ ?_⟩
    have := hl (acc :: pre) x mid post (congrArg _ heq) hx hmid
    rwa [cons_append, textOf_cons, hacc] at this
  · rintro ⟨hacc, hl⟩ pre x mid post heq hx hmid
    rcases pre with - | ⟨y, pre⟩
    · obtain ⟨rfl, htail⟩ := cons_eq_cons.1 heq
      rcases mid with - | ⟨y, mid⟩
      · simpa using hacc
      · obtain ⟨rfl, -⟩ := cons_eq_cons.1 htail
        exact (hmid mem_cons_self).elim
    · obtain ⟨rfl, htail⟩ := cons_eq_cons.1 heq
      rw [cons_append, textOf_cons, hacc, nil_append]
      exact hl pre x mid post htail hx hmid

theorem length_foldl_add_le (acc : Piece) (ps : List Piece) :
    (ps.foldl Piece.add acc).2.length ≤ acc.2.length + (textOf ps).length := by
  induction ps generalizing acc with
  | nil => exact le_refl _
  | cons p ps ih =>
    have hadd : (acc.add p).2.length ≤ acc.2.length + p.2.length := by
      unfold Piece.add
      split
      · exact Nat.zero_le _
      · exact le_of_eq length_append
    rw [foldl_cons, textOf_cons, length_append]
    exact (ih _).trans (by omega)

/-- **The sum is the concatenation if and only if nothing is lost.** -/
theorem foldl_add_eq_iff (acc : Piece) (ps : List Piece) :
    (ps.foldl Piece.add acc).2 = acc.2 ++ textOf ps ↔ Lossless (acc :: ps) := by
  induction ps generalizing acc with
  | nil => exact iff_of_true (append_nil _).symm (lossless_singleton acc)
  | cons p ps ih =>
    rw [foldl_cons]
    by_cases h : acc.1 = false ∧ p = (true, [])
    · obtain ⟨hacc, rfl⟩ := h
      have hadd : acc.add (true, []) = (true, []) := if_pos ⟨hacc, rfl⟩
      rw [lossless_drop hacc, hadd, ← ih, textOf_cons, nil_append]
      constructor
      · intro heq
        have hle := length_foldl_add_le (true, []) ps
        rw [heq, length_append, length_nil] at hle
        have hnil : acc.2 = [] := length_eq_zero_iff.1 (by omega)
        exact ⟨hnil, by rw [heq, hnil, nil_append]⟩
      · rintro ⟨hnil, heq⟩
        rw [heq, hnil, nil_append]
    · have hadd : acc.add p = (acc.1 && p.1, acc.2 ++ p.2) := if_neg h
      rw [lossless_add h, ← ih, hadd, textOf_cons, append_assoc]

end

/-! ### The sum that is compiled -/

def Vm.Datum.text : Datum → Bytes
  | .word w => decimal w.toInt
  | .string s => s

/-- The value is a string that can be added. -/
def Shape.IsPiece (s : Shape) (p : Piece) : Prop := s.isConst = p.1 ∧ s.datum = .string p.2

section

variable {ρ : Env} {n : ℕ} {v w : Value} {p q : Piece} {e l r : Expr} {s : Shape}

theorem piece_cases (h : (v.shape ρ).IsPiece p) : (v = .const (.string p.2) ∧ p.1 = true) ∨
      ∃ id type, v = .instr id type ∧ p.1 = false ∧ v.loaded ρ = .string p.2 := by
  obtain ⟨hconst, hdatum⟩ := h
  rcases v with (a | a | a) | ⟨id, type⟩
  · cases hdatum
  · cases hdatum
  · obtain rfl : a = p.2 := Datum.string.inj hdatum
    exact Or.inl ⟨rfl, hconst.symm⟩
  · exact Or.inr ⟨id, type, rfl, hconst.symm, hdatum⟩

theorem createSAdd_isPiece (hv : (v.shape ρ).IsPiece p) (hw : (w.shape ρ).IsPiece q) :
    ∃ s, (createSAdd v w).shape ρ = some s ∧ s.IsPiece (p.add q) := by
  obtain ⟨pc, pt⟩ := p
  obtain ⟨qc, qt⟩ := q
  obtain ⟨rfl, hp⟩ | ⟨i, type, rfl, hp, hpt⟩ := piece_cases hv
  · obtain rfl : pc = true := hp
    obtain ⟨rfl, hq⟩ | ⟨j, type', rfl, hq, hqt⟩ := piece_cases hw
    · obtain rfl : qc = true := hq
      exact ⟨_, rfl, rfl, rfl⟩
    · obtain rfl : qc = false := hq
      rcases pt with - | ⟨a, pt⟩
      · exact ⟨_, rfl, rfl, hqt⟩
      · refine ⟨.computed .string (.string (a :: pt ++ qt)), ?_, rfl, rfl⟩
        change (BinaryOp.sadd.vm _ ((Value.instr j type').loaded ρ)).map _ = _
        rw [hqt]
        rfl
  · obtain rfl : pc = false := hp
    obtain ⟨rfl, hq⟩ | ⟨j, type', rfl, hq, hqt⟩ := piece_cases hw
    · obtain rfl : qc = true := hq
      rcases qt with - | ⟨a, qt⟩
      · exact ⟨_, rfl, rfl, rfl⟩
      · refine ⟨.computed .string (.string (pt ++ a :: qt)), ?_, rfl, rfl⟩
        change (BinaryOp.sadd.vm ((Value.instr i type).loaded ρ) _).map _ = _
        rw [hpt]
        rfl
    · obtain rfl : qc = false := hq
      refine ⟨.computed .string (.string (pt ++ qt)), ?_, rfl, rfl⟩
      change (BinaryOp.sadd.vm ((Value.instr i type).loaded ρ) ((Value.instr j type').loaded ρ)).map
        _ = _
      rw [hpt, hqt]
      rfl

/-- The expression evaluates to a string that can be added. -/
def Expr.Sums (n : ℕ) (ρ : Env) (e : Expr) (p : Piece) : Prop :=
  ∃ r, e.exec n ρ = some r ∧ (shapeOf r).IsPiece p

theorem Expr.Sums.sadd (hl : l.Below n) (hr : r.Below n) (hp : l.Sums n ρ p)
    (hs : r.denote ρ = some s) (hq : s.IsPiece q) : (binary .sadd l r).Sums n ρ (p.add q) := by
  obtain ⟨a, ha, hp⟩ := hp
  have hreach := exec_reaches hl ha
  have hdenote := exec_denote hr hreach.le hreach.keeps
  rw [hs] at hdenote
  obtain ⟨b, hb, rfl⟩ := map_eq_some_iff.1 hdenote
  have hreach' := exec_reaches (hr.mono hreach.le) hb
  have hleft : (a.1.shape b.2.2).IsPiece p := by
    rw [shape_congr hreach.below hreach'.keeps]
    exact hp
  obtain ⟨s, hs, hpiece⟩ := createSAdd_isPiece hleft hq
  rw [← shape_exec] at hs
  obtain ⟨c, hc, rfl⟩ := map_eq_some_iff.1 hs
  refine ⟨c, ?_, hpiece⟩
  rw [exec, ha]
  show (r.exec a.2.1 a.2.2 >>= _) = _
  rw [hb]
  exact hc

/-- An expression that can be embedded: of the type of strings or numbers, and with a value. -/
structure Expr.Embeddable (ρ : Env) (e : Expr) : Prop where
  /-- The parser built it, and its variables have values of their types. -/
  typed : e.Typed ρ
  type_eq : e.type = .string ∨ e.type = .number
  defined : ∃ s, e.denote ρ = some s

/-- The string that is added for an expression. -/
def Expr.piece (ρ : Env) (e : Expr) : Piece :=
  ((e.denote ρ).elim true Shape.isConst, (e.denote ρ).elim [] fun s ↦ s.datum.text)

theorem createI2S_isPiece (h : (v.shape ρ).Fits .number) : ∃ s, (createI2S v).shape ρ = some s ∧
    s.IsPiece ((v.shape ρ).isConst, (v.shape ρ).datum.text) := by
  obtain ⟨htype, a, ha⟩ := h
  rcases v with (c | c | c) | ⟨id, type⟩
  · exact ⟨_, rfl, rfl, rfl⟩
  · cases htype
  · cases htype
  · obtain rfl : type = .number := htype
    refine ⟨.computed .string (.string (decimal a.toInt)), ?_, rfl, ?_⟩
    · change ((ρ id).toNumber.map fun w ↦ Datum.string (decimal w.toInt)).map _ = _
      rw [show ρ id = .word a from ha]
      rfl
    · show _ = Datum.string (ρ id).text
      rw [show ρ id = .word a from ha]
      rfl

theorem asString_isPiece (h : e.Embeddable ρ) : ∃ e' s, asString e = some e' ∧
    e'.bound = e.bound ∧ e'.denote ρ = some s ∧ s.IsPiece (e.piece ρ) := by
  obtain ⟨ht, htype, s, hs⟩ := h
  have hfits := fits_of_denote ht hs
  have hpiece : e.piece ρ = (s.isConst, s.datum.text) := by rw [piece, hs]; rfl
  rw [hpiece]
  rcases htype with htype | htype
  · rw [htype] at hfits
    obtain ⟨-, t, hdatum⟩ := hfits
    exact ⟨e, s, if_pos htype, rfl, hs, rfl, by rw [hdatum]; rfl⟩
  · rw [htype] at hfits
    obtain ⟨a, ha, rfl⟩ := map_eq_some_iff.1 hs
    obtain ⟨s', hs', hpiece'⟩ := createI2S_isPiece hfits
    refine ⟨.unary .i2s e, s', ?_, rfl, ?_, hpiece'⟩
    · rw [asString, htype]
      rfl
    · show ((e.exec e.bound ρ) >>= _).map shapeOf = _
      rw [ha, ← hs', ← shape_exec]
      rfl

/-- The strings that are added after the first text. The last text is left out if it is empty. -/
def piecesOf (ρ : Env) : List (Expr × Bytes) → List Piece
  | [] => []
  | [(e, last)] => e.piece ρ :: if last.isEmpty then [] else [(true, last)]
  | (e, fragment) :: rest => e.piece ρ :: (true, fragment) :: piecesOf ρ rest

theorem piecesOf_cons (e : Expr) (fragment : Bytes) (q : Expr × Bytes)
    (rest : List (Expr × Bytes)) : piecesOf ρ ((e, fragment) :: q :: rest) =
      e.piece ρ :: (true, fragment) :: piecesOf ρ (q :: rest) := rfl

/-- All texts and all embedded values, in the order of the source. -/
def concatenation (ρ : Env) (first : Bytes) (parts : List (Expr × Bytes)) : Bytes :=
  first ++ parts.flatMap fun p ↦ (p.1.piece ρ).2 ++ p.2

theorem concatenation_eq (first : Bytes) (parts : List (Expr × Bytes)) :
    concatenation ρ first parts = first ++ textOf (piecesOf ρ parts) := by
  rw [concatenation]
  congr 1
  induction parts with
  | nil => rfl
  | cons p parts ih =>
    obtain ⟨e, fragment⟩ := p
    rcases parts with - | ⟨q, parts⟩
    · rcases fragment with - | ⟨a, fragment⟩ <;> simp [piecesOf]
    · rw [flatMap_cons, ih, piecesOf_cons, textOf_cons, textOf_cons, append_assoc]

theorem interpolatedStr_sums {parts : List (Expr × Bytes)} {result : Expr} {acc : Piece}
    (hne : parts ≠ []) (hparts : ∀ p ∈ parts, p.1.Embeddable ρ ∧ p.1.Below n)
    (hresult : result.Below n) (hacc : result.Sums n ρ acc) :
    ∃ e, interpolatedStr result parts = some e ∧ e.Below n ∧
      e.Sums n ρ ((piecesOf ρ parts).foldl Piece.add acc) := by
  induction parts generalizing result acc with
  | nil => exact (hne rfl).elim
  | cons p parts ih =>
    obtain ⟨e, fragment⟩ := p
    obtain ⟨he, hbelow⟩ := hparts _ mem_cons_self
    obtain ⟨e', s, hstr, hbound, hs, hpiece⟩ := asString_isPiece he
    have hbelow' : e'.Below n := below_iff.2 (hbound ▸ below_iff.1 hbelow)
    have hsum := hacc.sadd hresult hbelow' hs hpiece
    have hleft : (binary .sadd result e').Below n := ⟨hresult, hbelow'⟩
    have htext (text : Bytes) : (binary .sadd (.binary .sadd result e') (.string text)).Below n ∧
          (binary .sadd (.binary .sadd result e') (.string text)).Sums n ρ
            ((acc.add (e.piece ρ)).add (true, text)) :=
      ⟨⟨hleft, trivial⟩, hsum.sadd hleft trivial rfl ⟨rfl, rfl⟩⟩
    rcases parts with - | ⟨q, parts⟩
    · rcases fragment with - | ⟨a, fragment⟩
      · exact ⟨_, by rw [interpolatedStr, hstr]; rfl, hleft, hsum⟩
      · exact ⟨_, by rw [interpolatedStr, hstr]; rfl, htext _⟩
    · obtain ⟨e'', heq, hbelow'', hsums⟩ := ih (cons_ne_nil q parts)
        (fun p hp ↦ hparts p (mem_cons_of_mem _ hp)) (htext fragment).1 (htext fragment).2
      refine ⟨e'', ?_, hbelow'', hsums⟩
      rw [interpolatedStr, hstr]
      · exact heq
      · exact nofun

theorem stringExpr_sums {first : Bytes} {parts : List (Expr × Bytes)}
    (hparts : ∀ p ∈ parts, p.1.Embeddable ρ ∧ p.1.Below n) :
    ∃ e, stringExpr first parts = some e ∧ e.Below n ∧
      e.Sums n ρ ((piecesOf ρ parts).foldl Piece.add (true, first)) := by
  have hfirst : (string first).Sums n ρ (true, first) := ⟨_, rfl, rfl, rfl⟩
  rcases parts with - | ⟨p, parts⟩
  · exact ⟨.string first, rfl, trivial, hfirst⟩
  · exact interpolatedStr_sums (cons_ne_nil p parts) hparts trivial hfirst

end

/-! ### The string -/

/-- The string with the given source, compiled and run, is the concatenation of its texts and its
embedded values. -/
def Interpolates (n : ℕ) (g : TargetCodeGenerator) (data : Runner.Data) (ρ : Env)
    (source : List Symbol) : Prop :=
  ∃ first parts e, parseFragments none [] source = some (first, parts) ∧
    stringExpr first parts = some e ∧ e.Yields n g data (.string (concatenation ρ first parts))

section

variable {source : List Symbol} {first : Bytes} {parts : List (Expr × Bytes)} {n : ℕ}
  {g : TargetCodeGenerator} {data : Runner.Data} {ρ : Env}
  (hlex : parseFragments none [] source = some (first, parts))
  (hparts : ∀ p ∈ parts, p.1.Embeddable ρ ∧ p.1.Below n) (hk : KnowsBelow g n)
  (hholds : g.Holds ρ data) (hroom : ∀ e, stringExpr first parts = some e → e.Room n g)

include hlex hparts hk hholds hroom

theorem interpolates_iff_sum : Interpolates n g data ρ source ↔
    ((piecesOf ρ parts).foldl Piece.add (true, first)).2 = concatenation ρ first parts := by
  have hsums := @stringExpr_sums ρ n first parts hparts
  obtain ⟨e, he, hbelow, ⟨x, n', ρ'⟩, hexec, hpiece⟩ := hsums
  have hyields := fun d ↦ yields_iff (d := d) hbelow hk hholds (hroom e he)
  have hloaded : x.loaded ρ' = .string ((piecesOf ρ parts).foldl Piece.add (true, first)).2 := by
    obtain ⟨rfl, -⟩ | ⟨id, type, rfl, -, hx⟩ := piece_cases hpiece
    · rfl
    · exact hx
  constructor
  · rintro ⟨first', parts', e', hlex', he', hy⟩
    cases hlex.symm.trans hlex'
    cases he.symm.trans he'
    obtain ⟨x', n'', ρ'', hexec', hx'⟩ := (hyields _).1 hy
    cases hexec.symm.trans hexec'
    exact Datum.string.inj (hloaded.symm.trans hx')
  · intro heq
    exact ⟨first, parts, e, hlex, he, (hyields _).2 ⟨x, n', ρ', hexec, by rw [hloaded, heq]⟩⟩

/-- **A string with embedded strings and numbers is the concatenation if and only if nothing is
lost.** -/
theorem interpolation_iff :
    Interpolates n g data ρ source ↔ Lossless ((true, first) :: piecesOf ρ parts) := by
  rw [interpolates_iff_sum hlex hparts hk hholds hroom, concatenation_eq]
  exact foldl_add_eq_iff (true, first) (piecesOf ρ parts)

end

theorem embeddable_var {ρ : Env} {id : ℕ} {type : FlowType} (h : HasType type (ρ id))
    (htype : type = .string ∨ type = .number) : (var id type).Embeddable ρ :=
  ⟨h, htype, _, rfl⟩

/-- `"a#{n}b"`, where `n` is `7`. -/
theorem interpolation_text : ∃ g data, Interpolates 1 g data
    (fun k ↦ if k = 0 then .word 7 else .string [])
    [.char 0x61, .char 0x23, .braces (.var 0 .number), .char 0x62, .char 0x22] := by
  obtain ⟨g, data, hk, hholds, hroom⟩ := exists_generator_two 0 1 (.word 7) (.string [])
  have hlex : parseFragments none []
      [.char 0x61, .char 0x23, .braces (.var 0 .number), .char 0x62, .char 0x22] =
        some ([0x61], [(.var 0 .number, [0x62])]) := rfl
  refine ⟨g, data, (interpolation_iff hlex ?_ hk hholds ?_).2 ?_⟩
  · rintro p hp
    obtain rfl := mem_singleton.1 hp
    exact ⟨embeddable_var trivial (Or.inr rfl), one_pos⟩
  · intro e he
    cases he
    exact room_of_size hroom (by decide)
  · exact lossless_of_notMem (by decide)

/-- `"#{a}#{b}"`, where `a` is `x` and `b` is empty: the text between the two is empty, and `a` is
lost. -/
theorem not_interpolates : ¬∀ (source : List Symbol) (first : Bytes) (parts : List (Expr × Bytes))
    (n : ℕ) (g : TargetCodeGenerator) (data : Runner.Data) (ρ : Env),
    parseFragments none [] source = some (first, parts) →
    (∀ p ∈ parts, p.1.Embeddable ρ ∧ p.1.Below n) → KnowsBelow g n → g.Holds ρ data →
    (∀ e, stringExpr first parts = some e → e.Room n g) → Interpolates n g data ρ source := by
  intro h
  obtain ⟨g, data, hk, hholds, hroom⟩ := exists_generator_two 0 2 (.string [0x78]) (.string [])
  have hlex : parseFragments none [] [.char 0x23, .braces (.var 0 .string), .char 0x23,
      .braces (.var 1 .string), .char 0x22] =
        some ([], [(.var 0 .string, []), (.var 1 .string, [])]) := rfl
  have hparts : ∀ p ∈ [(var 0 .string, ([] : Bytes)), (.var 1 .string, [])],
      p.1.Embeddable (fun k ↦ if k = 0 then .string [0x78] else .string []) ∧ p.1.Below 2 := by
    intro p hp
    obtain rfl | hp := mem_cons.1 hp
    · exact ⟨embeddable_var trivial (Or.inl rfl), two_pos⟩
    · obtain rfl := mem_singleton.1 hp
      exact ⟨embeddable_var trivial (Or.inl rfl), one_lt_two⟩
  have hroom' : ∀ e, stringExpr [] [(.var 0 .string, []), (.var 1 .string, [])] = some e →
      e.Room 2 g := by
    intro e he
    cases he
    exact room_of_size hroom (by decide)
  have hsum := (interpolates_iff_sum hlex hparts hk hholds hroom').1
    (h _ _ _ 2 g data _ hlex hparts hk hholds hroom')
  revert hsum
  decide

end Xzero.Flow

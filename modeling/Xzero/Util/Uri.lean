import Xzero.Http.Decoding
import Xzero.Library.Resume

/-!
# Query strings

`xzero/Uri.cc`: `decode` and `parseQueryString`. What is appended to `params` is what a run emits,
and an exception ends it.

A pair with an empty value ends the loop. **The pairs that were joined are appended, decoded and in
order, if and only if no value is empty** (`parseQueryString_eq_iff`).
-/

namespace Xzero.Util.Uri

open List Escape Http Option

/-- `std::stoul` of two characters in base 16, as a `char`: it skips white space and a sign, and
stops behind the last digit. -/
def stoul (a b : UInt8) : Option UInt8 :=
  match digit a, digit b with
  | some x, some y => some (16 * x + y)
  | some x, none => some x
  | none, some y =>
    if a = '+'.toUInt8 ∨ a = ' '.toUInt8 ∨ 9 ≤ a ∧ a ≤ 13 then some y
    else if a = '-'.toUInt8 then some (0 - y) else none
  | none, none => none

def decode (str : Bytes) : Option Bytes := unescape '%'.toUInt8 stoul str

/-- The inner loops go on. -/
def isPlain (c : UInt8) : Bool := c ≠ '='.toUInt8 && c ≠ '&'.toUInt8

/-- `parseQueryString`, from where `begin` and `cur` are at the head of the outer loop. -/
def parseQueryString (query : Bytes) : Trace (Bytes × Bytes) Unit :=
  match h : query.dropWhile isPlain with
  | [] => .pure ()
  | c :: rest =>
    if query.takeWhile isPlain = [] ∨ c ≠ '='.toUInt8 ∨ rest.takeWhile isPlain = [] then .pure ()
    else match decode (query.takeWhile isPlain), decode (rest.takeWhile isPlain) with
      | some key, some val => .bind ([(key, val)], some ()) fun _ ↦
          parseQueryString ((rest.dropWhile isPlain).drop 1)
      | _, _ => ([], none)
termination_by query.length
decreasing_by
  have hquery := (dropWhile_suffix (l := query) isPlain).length_le
  have hrest := (dropWhile_suffix (l := rest) isPlain).length_le
  rw [h, length_cons] at hquery
  rw [length_drop]
  omega

/-! ### What is joined -/

/-- The byte that two digits stand for. -/
def hexByte (a b : UInt8) : Option UInt8 :=
  (digit a).bind fun x ↦ (digit b).map (16 * x + ·)

/-- The text is a percent-encoding of the other one, without separators. -/
structure Encodes (text plain : Bytes) : Prop where
  reads : Reads '%'.toUInt8 hexByte text plain
  isPlain : ∀ c ∈ text, isPlain c = true

/-- Pairs joined as `key=value` with `&`. -/
def joined : List (Bytes × Bytes) → Bytes
  | [] => []
  | e :: es => e.1 ++ '='.toUInt8 :: (e.2 ++ if es = [] then [] else '&'.toUInt8 :: joined es)

variable {text plain t : Bytes}

theorem Encodes.decode (h : Encodes text plain) : decode text = some plain := by
  refine unescape_eq_some_iff.2 ?_
  obtain ⟨hreads, -⟩ := h
  induction hreads with
  | nil => exact .nil
  | cons hc _ ih => exact .cons hc ih
  | escape hx _ ih =>
    obtain ⟨y, hy, hx⟩ := bind_eq_some_iff.1 hx
    obtain ⟨z, hz, rfl⟩ := map_eq_some_iff.1 hx
    exact .escape (by rw [stoul, hy, hz]) ih

theorem Encodes.eq_nil_iff (h : Encodes text plain) : text = [] ↔ plain = [] := by
  cases h.reads <;> simp

theorem Encodes.takeWhile (h : Encodes text plain) (ht : t.takeWhile Uri.isPlain = []) :
    (text ++ t).takeWhile Uri.isPlain = text ∧
      (text ++ t).dropWhile Uri.isPlain = t.dropWhile Uri.isPlain := by
  rw [takeWhile_append_of_pos h.isPlain, dropWhile_append_of_pos h.isPlain, ht, append_nil]
  exact ⟨rfl, rfl⟩

/-- The pairs are encoded, and the keys are not empty. -/
def Pairs (encoded params : List (Bytes × Bytes)) : Prop :=
  encoded.Forall₂ (fun e p ↦ Encodes e.1 p.1 ∧ Encodes e.2 p.2 ∧ p.1 ≠ []) params

theorem parseQueryString_cons {e p : Bytes × Bytes} {es : List (Bytes × Bytes)}
    (hkey : Encodes e.1 p.1) (hval : Encodes e.2 p.2) (hne : p.1 ≠ []) :
    parseQueryString (joined (e :: es)) = if p.2 = [] then .pure () else
      .bind ([p], some ()) fun _ ↦ parseQueryString (joined es) := by
  generalize htail : (if es = [] then [] else '&'.toUInt8 :: joined es) = tail
  have hstop : tail.takeWhile isPlain = [] ∧ tail.dropWhile isPlain = tail ∧
      tail.drop 1 = joined es := by
    rw [← htail]
    split_ifs with hes
    · rw [hes]
      exact ⟨rfl, rfl, rfl⟩
    · exact ⟨rfl, rfl, rfl⟩
  obtain ⟨hkeyTake, hkeyDrop⟩ := hkey.takeWhile (t := '='.toUInt8 :: (e.2 ++ tail)) rfl
  obtain ⟨hvalTake, hvalDrop⟩ := hval.takeWhile hstop.1
  rw [joined, htail, parseQueryString.eq_def]
  split
  · next h => cases hkeyDrop.symm.trans h
  · next c rest h =>
    cases hkeyDrop.symm.trans h
    rw [hkeyTake, hvalTake, hvalDrop, hstop.2.1, hstop.2.2, hkey.decode, hval.decode]
    simp only [hkey.eq_nil_iff, hne, hval.eq_nil_iff, ne_eq, not_true_eq_false, false_or]

/-- **The pairs are appended, decoded and in order, if and only if no value is empty.** -/
theorem parseQueryString_eq_iff {encoded params : List (Bytes × Bytes)}
    (h : Pairs encoded params) : parseQueryString (joined encoded) = (params, some ()) ↔
      ∀ p ∈ params, p.2 ≠ [] := by
  induction h with
  | nil =>
    rw [joined, parseQueryString.eq_def]
    exact iff_of_true rfl (forall_mem_nil _)
  | @cons e p es ps hp _ ih =>
    obtain ⟨hkey, hval, hne⟩ := hp
    rw [parseQueryString_cons hkey hval hne, forall_mem_cons, ← ih]
    split_ifs with hnil
    · exact iff_of_false (by rintro ⟨⟩) fun hall ↦ hall.1 hnil
    · rw [Trace.bind_some, singleton_append, Prod.ext_iff, Prod.ext_iff, cons_inj_right]
      exact (and_iff_right hnil).symm

/-- `%41=b` is `A=b`. -/
theorem parseQueryString_escape :
    parseQueryString (joined [([37, 52, 49], [98])]) = ([([65], [98])], some ()) :=
  (parseQueryString_eq_iff (.cons ⟨⟨.escape rfl .nil, all_eq_true.1 rfl⟩,
    ⟨.cons (by decide) .nil, all_eq_true.1 rfl⟩, by decide⟩ .nil)).2 (by decide)

/-- Nothing is appended for `a=`. -/
theorem not_parseQueryString_eq : ∃ encoded params, Pairs encoded params ∧
    parseQueryString (joined encoded) ≠ (params, some ()) := by
  have hkey : Encodes [97] [97] := ⟨.cons (by decide) .nil, all_eq_true.1 rfl⟩
  have hval : Encodes [] [] := ⟨.nil, all_eq_true.1 rfl⟩
  refine ⟨[([97], [])], [([97], [])], .cons ⟨hkey, hval, by decide⟩ .nil, ?_⟩
  rw [parseQueryString_cons (p := ([97], [])) hkey hval (by decide)]
  rintro ⟨⟩

end Xzero.Util.Uri

import Mathlib.Data.List.AList
import Mathlib.Data.List.DropRight
import Xzero.Util.Buffer

/-!
# Configuration files

`xzero/text/IniFile.cc`, with `trim` and `split` of `xzero/StringUtil.cc`.

* `remove(title, key)` erases the key from a copy of the section. **The operations are those of a
  map** exactly if no key is removed that is there.
* `trim` reads before a string that has nothing but white space, and the text that `serialize`
  writes always ends with an empty line: **what was written is never read**.

Both are in `answers_iff`.
-/

namespace Xzero.Util

open List Option AList StringUtil Function

abbrev Section := AList fun _ : Bytes ↦ Bytes

/-- The sections by their titles. -/
abbrev IniFile := AList fun _ : Bytes ↦ Section

/-- A `std::map` in the order of its keys. -/
def rows {β : Type} (m : AList fun _ : Bytes ↦ β) : List (Σ _ : Bytes, β) :=
  m.entries.mergeSort fun a b ↦ a.1 ≤ b.1

/-- `trim`; `none` where it reads before the string. -/
def StringUtil.trim (value : Bytes) : Option Bytes :=
  if value.all isSpace then none else some ((value.dropWhile isSpace).rdropWhile isSpace)

/-- `split` at one byte, with the part up to where the search has come. -/
def StringUtil.split (pattern : UInt8) (part : Bytes) : Bytes → List Bytes
  | [] => [part]
  | c :: str => if c = pattern then part :: split pattern [] str else split pattern (part ++ [c]) str

namespace IniFile

def contains (f : IniFile) (title : Bytes) : Bool := (f.lookup title).isSome

def getSection (f : IniFile) (title : Bytes) : Section := (f.lookup title).getD ∅

/-- `get(title, key, value)` and `load(title, key, result)`. -/
def value? (f : IniFile) (title key : Bytes) : Option Bytes :=
  (f.lookup title).bind fun s ↦ s.lookup key

def containsKey (f : IniFile) (title key : Bytes) : Bool := (f.value? title key).isSome

def get (f : IniFile) (title key : Bytes) : Bytes := (f.value? title key).getD []

def set (f : IniFile) (title key value : Bytes) : IniFile :=
  f.insert title ((f.getSection title).insert key value)

def remove (f : IniFile) (title : Bytes) : IniFile := f.erase title

/-- `remove(title, key)`. The section is copied before the key is erased. -/
def removeKey (f : IniFile) (title key : Bytes) : IniFile :=
  let _copy := (f.lookup title).map fun s ↦ s.erase key
  f

def serialize (f : IniFile) : Bytes :=
  (rows f).flatMap fun s ↦ ('['.toUInt8 :: s.1 ++ [']'.toUInt8, 10] ++
    (rows s.2).flatMap fun row ↦ row.1 ++ '='.toUInt8 :: row.2 ++ [10]) ++ [10]

/-- One line of `load`, with the current title; `none` is also the exception. -/
def loadLine (s : IniFile × Bytes) (line : Bytes) : Option (IniFile × Bytes) := do
  let value ← trim line
  if value = [] ∨ value.head? = some ';'.toUInt8 ∨ value.head? = some '#'.toUInt8 then some s
  else if value.head? = some '['.toUInt8 ∧ value.getLast? = some ']'.toUInt8 then
    some (s.1, (value.drop 1).dropLast)
  else if s.2 = [] then none
  else if '='.toUInt8 ∈ value then
    let lhs ← trim (value.takeWhile (· ≠ '='.toUInt8))
    let rhs ← trim ((value.dropWhile (· ≠ '='.toUInt8)).drop 1)
    some (s.1.set s.2 lhs rhs, s.2)
  else some (s.1.set s.2 value [], s.2)

def load (f : IniFile) (data : Bytes) : Option IniFile :=
  ((split 10 [] data).foldlM loadLine (f, [])).map Prod.fst

/-! ### Operations -/

inductive Op
  | set (title key value : Bytes)
  | remove (title : Bytes)
  | removeKey (title key : Bytes)
  | clear

def step (f : IniFile) : Op → IniFile
  | .set title key value => f.set title key value
  | .remove title => f.remove title
  | .removeKey title key => f.removeKey title key
  | .clear => ∅

def run (ops : List Op) : IniFile := ops.foldl step ∅

/-- A map from titles and keys to values. -/
abbrev Values := Bytes → Option (Bytes → Option Bytes)

/-- What an operation does to the map. -/
def Op.apply (m : Values) : Op → Values
  | .set title key value =>
    update m title (some (update ((m title).getD fun _ ↦ none) key (some value)))
  | .remove title => update m title none
  | .removeKey title key => update m title ((m title).map (update · key none))
  | .clear => fun _ ↦ none

def spec (ops : List Op) : Values := ops.foldl Op.apply fun _ ↦ none

/-- The answers are those of the map. -/
def Answers (f : IniFile) (m : Values) : Prop :=
  ∀ title, f.contains title = (m title).isSome ∧ ∀ key, let value := (m title).bind (· key)
    f.containsKey title key = value.isSome ∧ f.get title key = value.getD [] ∧
      (f.getSection title).lookup key = value

/-- The map that the file is. -/
def values (f : IniFile) : Values := Option.map (fun s key ↦ s.lookup key) ∘ fun title ↦ f.lookup title

variable {f : IniFile} {m : Values}

theorem answers_iff_values : f.Answers m ↔ f.values = m := by
  constructor
  · intro h
    funext title
    obtain ⟨hcontains, hget⟩ := h title
    have hsection (key : Bytes) := (hget key).2.2
    rw [contains] at hcontains
    rw [getSection] at hsection
    rw [values, comp_apply]
    generalize f.lookup title = s, m title = s' at hcontains hsection ⊢
    cases s <;> cases s' <;> first | rfl | exact congrArg some (funext hsection) | cases hcontains
  · rintro rfl title
    rw [contains, getSection, values, comp_apply]
    refine ⟨isSome_map.symm, fun key ↦ ?_⟩
    rw [containsKey, get, value?]
    cases f.lookup title <;> exact ⟨rfl, rfl, rfl⟩

theorem lookup_insert_eq {β : Type} (s : AList fun _ : Bytes ↦ β) (a : Bytes) (b : β) :
    (fun k ↦ (s.insert a b).lookup k) = update (fun k ↦ s.lookup k) a (some b) := by
  refine eq_update_iff.2 ⟨lookup_insert s, fun k hk ↦ lookup_insert_ne hk⟩

/-- A key that is there is not removed. -/
def Op.Kept (m : Values) : Op → Prop
  | .removeKey title key => (m title).bind (· key) = none
  | _ => True

theorem Op.apply_removeKey_eq_iff {title key : Bytes} :
    (Op.removeKey title key).apply m = m ↔ (m title).bind (· key) = none := by
  rw [Op.apply, update_eq_self_iff]
  rcases m title with - | s
  · exact iff_of_true rfl rfl
  · rw [map_some, some_inj, update_eq_self_iff, bind_some, eq_comm]

theorem values_step {op : Op} (hop : op.Kept f.values) : (f.step op).values = op.apply f.values := by
  cases op with
  | set title key value =>
    rw [IniFile.step, set, values, lookup_insert_eq, comp_update, map_some, lookup_insert_eq,
      Op.apply, values, comp_apply, getSection]
    cases f.lookup title <;> rfl
  | remove title =>
    refine eq_update_iff.2 ⟨?_, fun t ht ↦ ?_⟩
    · exact congrArg _ (lookup_erase title f)
    · exact congrArg _ (lookup_erase_ne ht)
  | removeKey title key => exact (Op.apply_removeKey_eq_iff.2 hop).symm
  | clear => rfl

theorem concat_eq (ops : List Op) (op : Op) : run (ops ++ [op]) = (run ops).step op ∧
    spec (ops ++ [op]) = op.apply (spec ops) := ⟨foldl_append, foldl_append⟩

theorem values_run {ops : List Op} (h : ∀ pre op, pre ++ [op] <+: ops → op.Kept (spec pre)) :
    (run ops).values = spec ops := by
  induction ops using reverseRecOn with
  | nil => rfl
  | append_singleton ops op ih =>
    have hvalues := ih fun pre op' hpre ↦ h pre op' (hpre.trans (prefix_append ..))
    rw [(concat_eq ops op).1, (concat_eq ops op).2, ← hvalues]
    exact values_step (hvalues ▸ h ops op prefix_rfl)

/-! ### Texts -/

/-- What is written is read into a new file. -/
def ReadsBack (f : IniFile) : Prop :=
  ∃ g, load ∅ f.serialize = some g ∧ ∀ title key, g.value? title key = f.value? title key

theorem split_concat (c : UInt8) (part str : Bytes) :
    split c part (str ++ [c]) = split c part str ++ [[]] := by
  induction str generalizing part with
  | nil => simp [StringUtil.split]
  | cons d str ih =>
    rw [cons_append, StringUtil.split, StringUtil.split]
    split_ifs
    · rw [ih, cons_append]
    · exact ih _

theorem not_readsBack (f : IniFile) : ¬f.ReadsBack := by
  rintro ⟨g, hload, -⟩
  obtain ⟨lines, hlines⟩ : ∃ lines, split 10 [] f.serialize = lines ++ [[]] := by
    rw [serialize]
    rcases eq_nil_or_concat (rows f) with h | ⟨ss, s, h⟩
    · exact ⟨[], by rw [h]; rfl⟩
    · rw [h, concat_eq_append, flatMap_append, flatMap_singleton, ← append_assoc]
      exact ⟨_, split_concat ..⟩
  obtain ⟨s, hs, -⟩ := map_eq_some_iff.1 hload
  rw [hlines, foldlM_append] at hs
  obtain ⟨s', -, hs'⟩ := bind_eq_some_iff.1 hs
  cases hs'

/-- **When the operations are those of a map**: no key is removed that is there. **What was written
is never read.** -/
theorem answers_iff (ops : List Op) (f : IniFile) :
    ((∀ pre, pre <+: ops → (run pre).Answers (spec pre)) ↔
      ∀ pre op, pre ++ [op] <+: ops → op.Kept (spec pre)) ∧ ¬f.ReadsBack := by
  simp only [answers_iff_values]
  refine ⟨⟨fun h pre op hpre ↦ ?_, fun h pre hpre ↦ ?_⟩, not_readsBack f⟩
  · have hvalues := h pre ((prefix_append pre [op]).trans hpre)
    have hvalues' := h _ hpre
    rw [(concat_eq pre op).1, (concat_eq pre op).2] at hvalues'
    cases op with
    | removeKey title key => exact Op.apply_removeKey_eq_iff.1 (hvalues'.symm.trans hvalues)
    | _ => trivial
  · exact values_run fun pre' op hpre' ↦ h pre' op (hpre'.trans hpre)

/-- A key that was removed is still there, and one that is there cannot be read back. -/
theorem not_answers : (∃ ops : List Op, ¬(run ops).Answers (spec ops)) ∧
    ¬(run [.set [97] [98] [99]]).ReadsBack := by
  refine ⟨⟨[.set [97] [98] [99], .removeKey [97] [98]], fun h ↦ ?_⟩, not_readsBack _⟩
  cases ((h [97]).2 [98]).1

end IniFile

end Xzero.Util

import Xzero.Library.Budget
import Xzero.Util.Buffer

/-!
# The dynamic table of HPACK

`xzero::http::hpack::DynamicTable` keeps header fields, the newest one first, up to a size. After
every call it evicts fields from the back as long as they are too large. The code takes the last
field without looking whether there is one, and subtracts its size without looking whether there is
so much; here that leads to `none`. **It does not come to that, and what is kept is the longest run
of the newest fields that were never evicted** (`DynamicTable.run_eq_some`).

A size is the number of bytes of strings that are all in memory, and some more for each; it is a
natural number.
-/

namespace Xzero.Http.Hpack

open List Util Budget

abbrev TableEntry := Bytes × Bytes

def headerFieldOverheadSize : ℕ := 32

/-- What a field contributes to the size of a table. -/
def fieldSize (entry : TableEntry) : ℕ := entry.1.length + entry.2.length + headerFieldOverheadSize

structure DynamicTable where
  maxSize : ℕ
  size : ℕ
  entries : List TableEntry
  deriving DecidableEq, Repr

namespace DynamicTable

/-- `DynamicTable(maxSize)`. -/
def init (maxSize : ℕ) : DynamicTable := ⟨maxSize, 0, []⟩

/-- The loop of `evict`. -/
def evictLoop (maxSize size : ℕ) (entries : List TableEntry) : Option (ℕ × List TableEntry) :=
  if size ≤ maxSize then some (size, entries)
  else if hne : entries = [] then none
  else if fieldSize (entries.getLast hne) ≤ size then
    evictLoop maxSize (size - fieldSize (entries.getLast hne)) entries.dropLast
  else none
termination_by entries.length
decreasing_by
  rw [length_dropLast]
  exact Nat.sub_one_lt (length_pos_iff.2 hne).ne'

def evict (t : DynamicTable) : Option DynamicTable :=
  (evictLoop t.maxSize t.size t.entries).map fun r ↦ { t with size := r.1, entries := r.2 }

def setMaxSize (t : DynamicTable) (limit : ℕ) : Option DynamicTable := evict { t with maxSize := limit }

def add (t : DynamicTable) (name value : Bytes) : Option DynamicTable :=
  evict { t with size := t.size + fieldSize (name, value), entries := (name, value) :: t.entries }

def clear (t : DynamicTable) : DynamicTable := { t with size := 0, entries := [] }

/-- The loop of `find`, from an index on. -/
def findFrom (name value : Bytes) (i : ℕ) : List TableEntry → Option (ℕ × Bool)
  | [] => none
  | entry :: entries =>
    if name ≠ entry.1 then findFrom name value (i + 1) entries else some (i, value = entry.2)

/-- `find`: the index of the first field of that name, and whether it has the value. -/
def find (t : DynamicTable) (name value : Bytes) : Option (ℕ × Bool) := findFrom name value 0 t.entries

/-! ### What is kept -/

/-- The size is that of the fields, and it is not too large. -/
structure Valid (t : DynamicTable) : Prop where
  size_eq : t.size = total fieldSize t.entries
  size_le : t.size ≤ t.maxSize

theorem valid_init (maxSize : ℕ) : (init maxSize).Valid := ⟨rfl, Nat.zero_le maxSize⟩

/-- The table with as many of some fields as fit. -/
def ofFields (maxSize : ℕ) (fields : List TableEntry) : DynamicTable where
  maxSize := maxSize
  size := total fieldSize (fit fieldSize maxSize fields)
  entries := fit fieldSize maxSize fields

theorem valid_ofFields (maxSize : ℕ) (fields : List TableEntry) : (ofFields maxSize fields).Valid :=
  ⟨rfl, total_fit_le⟩

/-- **The loop keeps what fits.** It takes a field only from a table that is not empty, since an
empty one has no size. -/
theorem evictLoop_eq (maxSize : ℕ) (entries : List TableEntry) :
    evictLoop maxSize (total fieldSize entries) entries =
      some (total fieldSize (fit fieldSize maxSize entries), fit fieldSize maxSize entries) := by
  induction entries using reverseRecOn with
  | nil =>
    rw [evictLoop, total_nil, if_pos (Nat.zero_le maxSize)]
    rfl
  | append_singleton entries entry ih =>
    rcases lt_or_ge maxSize (total fieldSize (entries ++ [entry])) with hlt | hle
    · have htotal : total fieldSize (entries ++ [entry]) =
          total fieldSize entries + fieldSize entry := total_append
      rw [fit_concat hlt, evictLoop, if_neg (not_le.2 hlt), dif_neg (concat_ne_nil _ _),
        getLast_concat, htotal, if_pos (Nat.le_add_left _ _), Nat.add_sub_cancel,
        dropLast_concat, ih]
    · rw [fit_eq_self hle, evictLoop, if_pos hle]

theorem evict_eq {t : DynamicTable} (h : t.size = total fieldSize t.entries) :
    t.evict = some (ofFields t.maxSize t.entries) := by
  rw [evict, h, evictLoop_eq]
  rfl

theorem setMaxSize_eq {t : DynamicTable} (h : t.Valid) (limit : ℕ) :
    t.setMaxSize limit = some (ofFields limit t.entries) := evict_eq h.size_eq

theorem add_eq {t : DynamicTable} (h : t.Valid) (name value : Bytes) :
    t.add name value = some (ofFields t.maxSize ((name, value) :: t.entries)) := by
  refine evict_eq ?_
  change t.size + fieldSize (name, value) = fieldSize (name, value) + total fieldSize t.entries
  rw [h.size_eq, add_comm]

theorem valid_clear (t : DynamicTable) : t.clear.Valid := ⟨rfl, Nat.zero_le _⟩

/-! ### Calls -/

/-- A call that changes a table. -/
inductive Call
  | add (name value : Bytes)
  | setMaxSize (limit : ℕ)
  | clear
  deriving DecidableEq, Repr

def call (t : DynamicTable) : Call → Option DynamicTable
  | .add name value => t.add name value
  | .setMaxSize limit => t.setMaxSize limit
  | .clear => some t.clear

def run (t : DynamicTable) (calls : List Call) : Option DynamicTable := calls.foldlM call t

def limit (maxSize : ℕ) (calls : List Call) : ℕ :=
  calls.foldl (fun limit c ↦ match c with
    | .setMaxSize limit' => limit'
    | _ => limit) maxSize

/-- The fields added since the last `clear`, the newest one first. -/
def recent (calls : List Call) : List TableEntry :=
  calls.foldl (fun fields c ↦ match c with
    | .add name value => (name, value) :: fields
    | .setMaxSize _ => fields
    | .clear => []) []

def adds (calls : List Call) : ℕ := calls.countP fun c ↦ c matches .add _ _

/-- **None of the `k` newest fields was ever evicted:** after every call since the last `clear`,
those of them that had been added were in the table. -/
def NeverEvicted (maxSize : ℕ) (calls : List Call) (k : ℕ) : Prop :=
  ∀ past later t, calls = past ++ later → .clear ∉ later → (init maxSize).run past = some t →
    (recent past).take (k - adds later) <+: t.entries

section

variable {t t' : DynamicTable} {maxSize : ℕ} {calls : List Call} {c : Call}

theorem run_concat (calls : List Call) (c : Call) :
    t.run (calls ++ [c]) = t.run calls >>= fun t' ↦ t'.call c := by
  simp only [run, foldlM_append, foldlM_cons, foldlM_nil, bind_pure]

theorem limit_concat (c : Call) : limit maxSize (calls ++ [c]) = limit (limit maxSize calls) [c] :=
  foldl_append

theorem recent_concat (c : Call) : recent (calls ++ [c]) = match c with
    | .add name value => (name, value) :: recent calls
    | .setMaxSize _ => recent calls
    | .clear => [] := foldl_append

theorem adds_concat (c : Call) : adds (calls ++ [c]) = adds calls + adds [c] := countP_append

/-- What a table has of the calls before. -/
structure Keeps (maxSize : ℕ) (calls : List Call) (t : DynamicTable) : Prop where
  valid : t.Valid
  maxSize_eq : t.maxSize = limit maxSize calls
  entries_isPrefix : t.entries <+: recent calls

/-- **What a call does to a table:** it stays valid, and it has no more of the fields than before.
-/
theorem Keeps.call (h : Keeps maxSize calls t) (c : Call) :
    ∃ t', t.call c = some t' ∧ Keeps maxSize (calls ++ [c]) t' ∧
      (c ≠ .clear → t'.entries.length ≤ t.entries.length + adds [c]) := by
  have hlimit := h.maxSize_eq
  cases c with
  | add name value =>
    have hfit : (ofFields t.maxSize ((name, value) :: t.entries)).entries <+: (name, value) :: t.entries :=
      fit_isPrefix
    refine ⟨_, add_eq h.valid name value, ⟨valid_ofFields _ _, ?_, ?_⟩, fun _ ↦ hfit.length_le⟩
    · rw [limit_concat]
      exact hlimit
    · rw [recent_concat]
      exact hfit.trans (cons_prefix_cons.2 ⟨rfl, h.entries_isPrefix⟩)
  | setMaxSize limit =>
    have hfit : (ofFields limit t.entries).entries <+: t.entries := fit_isPrefix
    refine ⟨_, setMaxSize_eq h.valid limit, ⟨valid_ofFields _ _, ?_, ?_⟩, fun _ ↦ hfit.length_le⟩
    · rw [limit_concat]
      rfl
    · rw [recent_concat]
      exact hfit.trans h.entries_isPrefix
  | clear =>
    refine ⟨t.clear, rfl, ⟨valid_clear t, ?_, ?_⟩, fun hne ↦ absurd rfl hne⟩
    · rw [limit_concat]
      exact hlimit
    · exact nil_prefix

theorem run_concat_of_some (h : t.run calls = some t') : t.run (calls ++ [c]) = t'.call c := by
  rw [run_concat, h]
  rfl

/-- **After every call, the fields in the table are those that were never evicted.** -/
theorem keeps_run (maxSize : ℕ) (calls : List Call) :
    ∃ t, (init maxSize).run calls = some t ∧ Keeps maxSize calls t ∧
      NeverEvicted maxSize calls t.entries.length := by
  induction calls using reverseRecOn with
  | nil =>
    refine ⟨init maxSize, rfl, ⟨valid_init maxSize, rfl, prefix_rfl⟩, fun past later t heq _ _ ↦ ?_⟩
    obtain ⟨rfl, rfl⟩ := append_eq_nil_iff.1 heq.symm
    exact nil_prefix
  | append_singleton calls c ih =>
    obtain ⟨t, hrun, hkeeps, hnever⟩ := ih
    obtain ⟨t', hcall, hkeeps', hlength⟩ := hkeeps.call c
    have hrun' : (init maxSize).run (calls ++ [c]) = some t' := (run_concat_of_some hrun).trans hcall
    refine ⟨t', hrun', hkeeps', fun past later t₁ heq hclear hpast ↦ ?_⟩
    rcases eq_nil_or_concat later with rfl | ⟨later, c', rfl⟩
    · rw [append_nil] at heq
      subst heq
      obtain rfl := Option.some.inj (hrun'.symm.trans hpast)
      rw [adds, countP_nil, Nat.sub_zero, ← prefix_iff_eq_take.1 hkeeps'.entries_isPrefix]
    · rw [concat_eq_append, ← append_assoc] at heq
      obtain ⟨rfl, hc⟩ := append_inj' heq rfl
      obtain rfl := singleton_inj.1 hc
      rw [concat_eq_append] at hclear ⊢
      -- The call is not the last one since then; it has not brought back what was evicted before.
      have hle := hlength fun hc ↦ hclear (mem_append_right _ (hc ▸ mem_singleton_self c))
      have hnever' := hnever past later t₁ rfl (fun hmem ↦ hclear (mem_append_left _ hmem)) hpast
      refine IsPrefix.trans (take_prefix_take_left ?_) hnever'
      rw [adds_concat]
      omega

end

end DynamicTable

end Xzero.Http.Hpack

import Xzero.Util.Buffer

/-!
# Lists of header fields

`xzero/http/HeaderFieldList.cc`: names and values, in order. Names are compared without regard to
case, and of several fields of a name the first one is found.
-/

namespace Xzero.Http

open List Util Option Buffer

abbrev HeaderFieldList := List (Bytes × Bytes)

namespace HeaderFieldList

def contains (fields : HeaderFieldList) (name : Bytes) : Bool :=
  fields.any fun field ↦ iequals field.1 name

def get (fields : HeaderFieldList) (name : Bytes) : Bytes :=
  ((fields.find? fun field ↦ iequals field.1 name).map Prod.snd).getD []

def remove (fields : HeaderFieldList) (name : Bytes) : HeaderFieldList :=
  fields.filter fun field ↦ !iequals field.1 name

section

variable {fields : HeaderFieldList} {name name' value : Bytes}

theorem contains_append : contains (fields ++ [(name, value)]) name' =
    (contains fields name' || iequals name name') := by
  rw [contains, any_append, any_cons, any_nil, Bool.or_false]
  rfl

theorem get_append_of_iequals (hfields : contains fields name' = false)
    (hname : iequals name name' = true) : get (fields ++ [(name, value)]) name' = value := by
  have hnone : fields.find? (fun field ↦ iequals field.1 name') = none := by
    rw [find?_eq_none]
    rw [contains, List.any_eq_false] at hfields
    exact hfields
  have hhead : [(name, value)].find? (fun field ↦ iequals field.1 name') =
      some (name, value) := find?_cons_of_pos hname
  rw [get, find?_append, hnone, none_or, hhead]
  rfl

section

variable (hname : iequals name name' = false)
include hname

theorem get_append_of_not_iequals : get (fields ++ [(name, value)]) name' = get fields name' := by
  have hnone : [(name, value)].find? (fun field ↦ iequals field.1 name') = none :=
    find?_cons_of_neg (by simp [hname])
  rw [get, find?_append, hnone, or_none, get]

theorem find_remove : ((remove fields name).find? fun field ↦ iequals field.1 name') =
      fields.find? fun field ↦ iequals field.1 name' := by
  rw [remove, find?_filter]
  refine congrArg (fun q ↦ fields.find? q) (funext fun field ↦ ?_)
  by_cases hfield : iequals field.1 name' = true
  · have hother : iequals field.1 name = false := by
      by_contra hsame
      rw [Bool.not_eq_false] at hsame
      have hnames := (iequals_iff.1 hsame).symm.trans (iequals_iff.1 hfield)
      exact absurd (iequals_iff.2 hnames) (by rw [hname]; exact Bool.false_ne_true)
    simp [hother, hfield]
  · simp [hfield]

theorem get_remove : get (remove fields name) name' = get fields name' :=
  congrArg (fun field ↦ (field.map Prod.snd).getD []) (find_remove hname)

end

theorem contains_eq_isSome : contains fields name =
    (fields.find? fun field ↦ iequals field.1 name).isSome := by
  rw [Bool.eq_iff_iff, find?_isSome, contains, List.any_eq_true]

theorem contains_remove (hname : iequals name name' = false) :
    contains (remove fields name) name' = contains fields name' := by
  rw [contains_eq_isSome, contains_eq_isSome]
  exact congrArg isSome (find_remove hname)

theorem foldl_remove {names : List Bytes} (hnames : ∀ n ∈ names, iequals n name' = false) :
    contains (names.foldl remove fields) name' = contains fields name' ∧
      get (names.foldl remove fields) name' = get fields name' := by
  induction names generalizing fields with
  | nil => exact ⟨rfl, rfl⟩
  | cons n names ih =>
    obtain ⟨hn, hnames⟩ := forall_mem_cons.1 hnames
    obtain ⟨hcontains, hget⟩ := @ih (remove fields n) hnames
    exact ⟨hcontains.trans (contains_remove hn), hget.trans (get_remove hn)⟩

end

end HeaderFieldList

end Xzero.Http

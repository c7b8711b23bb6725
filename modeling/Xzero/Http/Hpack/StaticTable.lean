import Xzero.Http.Hpack.DynamicTable

/-!
# The static table of HPACK

`xzero::http::hpack::StaticTable`. A field is looked for by binary search in a copy of the table
that is sorted. **What is found is what is in the table** (`StaticTable.Match.sound`). Where only
the name is found, the code does not say so: `nameValueMatch` keeps the value it had.
-/

namespace Xzero.Http.Hpack

open Util List Option

namespace StaticTable

def entries : List (String × String) :=
  [ (":authority", ""), (":method", "GET"), (":method", "POST"), (":path", "/"),
    (":path", "/index.html"), (":scheme", "http"), (":scheme", "https"), (":status", "200"),
    (":status", "204"), (":status", "206"), (":status", "304"), (":status", "400"),
    (":status", "404"), (":status", "500"), ("accept-charset", ""),
    ("accept-encoding", "gzip, deflate"), ("accept-language", ""), ("accept-ranges", ""),
    ("accept", ""), ("access-control-allow-origin", ""), ("age", ""), ("allow", ""),
    ("authorization", ""), ("cache-control", ""), ("content-disposition", ""),
    ("content-encoding", ""), ("content-language", ""), ("content-length", ""),
    ("content-location", ""), ("content-range", ""), ("content-type", ""), ("cookie", ""),
    ("date", ""), ("etag", ""), ("expect", ""), ("expires", ""), ("from", ""), ("host", ""),
    ("if-match", ""), ("if-modified-since", ""), ("if-none-match", ""), ("if-range", ""),
    ("if-unmodified-since", ""), ("last-modified", ""), ("link", ""), ("location", ""),
    ("max-forwards", ""), ("proxy-authenticate", ""), ("proxy-authorization", ""), ("range", ""),
    ("referer", ""), ("refresh", ""), ("retry-after", ""), ("server", ""), ("set-cookie", ""),
    ("strict-transport-security", ""), ("transfer-encoding", ""), ("user-agent", ""),
    ("vary", ""), ("via", ""), ("www-authenticate", "")
  ]

def sortedEntries : List (ℕ × String × String) :=
  [ (0, ":authority", ""), (1, ":method", "GET"), (2, ":method", "POST"), (3, ":path", "/"),
    (4, ":path", "/index.html"), (5, ":scheme", "http"), (6, ":scheme", "https"),
    (7, ":status", "200"), (8, ":status", "204"), (9, ":status", "206"), (10, ":status", "304"),
    (11, ":status", "400"), (12, ":status", "404"), (13, ":status", "500"), (18, "accept", ""),
    (14, "accept-charset", ""), (15, "accept-encoding", "gzip, deflate"),
    (16, "accept-language", ""), (17, "accept-ranges", ""),
    (19, "access-control-allow-origin", ""), (20, "age", ""), (21, "allow", ""),
    (22, "authorization", ""), (23, "cache-control", ""), (24, "content-disposition", ""),
    (25, "content-encoding", ""), (26, "content-language", ""), (27, "content-length", ""),
    (28, "content-location", ""), (29, "content-range", ""), (30, "content-type", ""),
    (31, "cookie", ""), (32, "date", ""), (33, "etag", ""), (34, "expect", ""),
    (35, "expires", ""), (36, "from", ""), (37, "host", ""), (38, "if-match", ""),
    (39, "if-modified-since", ""), (40, "if-none-match", ""), (41, "if-range", ""),
    (42, "if-unmodified-since", ""), (43, "last-modified", ""), (44, "link", ""),
    (45, "location", ""), (46, "max-forwards", ""), (47, "proxy-authenticate", ""),
    (48, "proxy-authorization", ""), (49, "range", ""), (50, "referer", ""), (51, "refresh", ""),
    (52, "retry-after", ""), (53, "server", ""), (54, "set-cookie", ""),
    (55, "strict-transport-security", ""), (56, "transfer-encoding", ""), (57, "user-agent", ""),
    (58, "vary", ""), (59, "via", ""), (60, "www-authenticate", "")
  ]

/-- The bytes of a string of the table. -/
def bytes (text : String) : Bytes := text.toList.map Char.toUInt8

def length : ℕ := entries.length

/-- `at`. -/
def at? (index : ℕ) : Option TableEntry :=
  entries[index]?.map fun entry ↦ (bytes entry.1, bytes entry.2)

def compare : Bytes → Bytes → Ordering
  | [], [] => .eq
  | [], _ :: _ => .lt
  | _ :: _, [] => .gt
  | a :: as, b :: bs => if a < b then .lt else if b < a then .gt else compare as bs

def sortedAt (m : ℕ) : ℕ × TableEntry :=
  let entry := sortedEntries.getD m (0, "", "")
  (entry.1, (bytes entry.2.1, bytes entry.2.2))

/-- What `find` leaves in `index`, and in `nameValueMatch` if it writes it. -/
structure Match where
  index : ℕ
  nameValueMatch : Option Bool
  deriving DecidableEq, Repr

/-- The comparison of a field with an entry. -/
def compareEntry (name value : Bytes) (m : ℕ) : Ordering :=
  (compare name (sortedAt m).2.1).then (compare value (sortedAt m).2.2)

/-- What `find` does when the search has come to two entries next to each other. -/
def findBetween (name value : Bytes) (l r : ℕ) : Option Match :=
  let foundLeftName := compare name (sortedAt l).2.1 = .eq
  let foundRightName := compare name (sortedAt r).2.1 = .eq
  if foundLeftName ∧ compare value (sortedAt l).2.2 = .eq then some ⟨(sortedAt l).1, some true⟩
  else if foundRightName ∧ compare value (sortedAt r).2.2 = .eq then some ⟨(sortedAt r).1, some true⟩
  else if foundRightName then some ⟨(sortedAt r).1, none⟩
  else if foundLeftName then some ⟨(sortedAt l).1, none⟩
  else none

/-- The loop of `find`. -/
def findLoop (name value : Bytes) (l r : ℕ) : Option Match :=
  if 2 ≤ r - l then
    let m := (l + r) / 2
    match compareEntry name value m with
    | .lt => findLoop name value l m
    | .gt => findLoop name value m r
    | .eq => some ⟨(sortedAt m).1, some true⟩
  else findBetween name value l r
termination_by r - l

def find (name value : Bytes) : Option Match := findLoop name value 0 (sortedEntries.length - 1)

/-! ### What is found -/

theorem eq_of_compare {a b : Bytes} (h : compare a b = .eq) : a = b := by
  induction a generalizing b with
  | nil =>
    rcases b with - | ⟨b, bs⟩
    · rfl
    · cases h
  | cons a as ih =>
    rcases b with - | ⟨b, bs⟩
    · cases h
    · rw [compare] at h
      split at h
      · cases h
      · next hlt =>
        split at h
        · cases h
        · next hgt => rw [ih h, UInt8.le_antisymm (UInt8.not_lt.1 hgt) (UInt8.not_lt.1 hlt)]

theorem sortedEntries_eq : (sortedEntries.map fun entry ↦ entries[entry.1]?) =
    sortedEntries.map fun entry ↦ some entry.2 := rfl

theorem at?_sortedAt {m : ℕ} (hm : m < sortedEntries.length) :
    at? (sortedAt m).1 = some (sortedAt m).2 := by
  have hentry := congrArg (·[m]?) sortedEntries_eq
  simp only [getElem?_map, getElem?_eq_getElem hm, map_some, some.injEq] at hentry
  have hget : sortedEntries.getD m (0, "", "") = sortedEntries[m] := by
    rw [getD_eq_getElem?_getD, getElem?_eq_getElem hm, getD_some]
  simp only [at?, sortedAt, hget, hentry, map_some]

/-- What a search has found is in the table. -/
structure Match.Sound (name value : Bytes) (found : Match) : Prop where
  /-- The name is the one that was looked for. -/
  name_eq : ∃ value', at? found.index = some (name, value')
  /-- So is the value, if the search says so. -/
  value_eq : found.nameValueMatch = some true → at? found.index = some (name, value)
  /-- The search never says that it is not. -/
  ne_false : found.nameValueMatch ≠ some false

section

variable {name value : Bytes} {m : ℕ} (hm : m < sortedEntries.length)
  (hname : compare name (sortedAt m).2.1 = .eq)
include hm hname

theorem sound_of_name : Match.Sound name value ⟨(sortedAt m).1, none⟩ := by
  have hat := at?_sortedAt hm
  rw [eq_of_compare hname]
  exact ⟨⟨_, hat⟩, nofun, nofun⟩

theorem sound_of_field (hvalue : compare value (sortedAt m).2.2 = .eq) :
    Match.Sound name value ⟨(sortedAt m).1, some true⟩ := by
  have hat := at?_sortedAt hm
  rw [eq_of_compare hname, eq_of_compare hvalue]
  exact ⟨⟨_, hat⟩, fun _ ↦ hat, nofun⟩

end

section

variable {name value : Bytes} {l r : ℕ} {found : Match} (hl : l < sortedEntries.length)
  (hr : r < sortedEntries.length)
include hl hr

theorem findBetween_sound (h : findBetween name value l r = some found) :
    found.Sound name value := by
  rw [findBetween] at h
  split_ifs at h with hleft hright hname hname'
  · cases h
    exact sound_of_field hl hleft.1 hleft.2
  · cases h
    exact sound_of_field hr hright.1 hright.2
  · cases h
    exact sound_of_name hr hname
  · cases h
    exact sound_of_name hl hname'

/-- **The loop finds what is in the table.** -/
theorem findLoop_sound (h : findLoop name value l r = some found) : found.Sound name value := by
  fun_induction findLoop name value l r with
  | case1 l r hle m hcmp ih => exact ih hl (by omega) h
  | case2 l r hle m hcmp ih => exact ih (by omega) hr h
  | case3 l r hle m hcmp =>
    cases h
    obtain ⟨hname, hvalue⟩ := Ordering.then_eq_eq.1 hcmp
    exact sound_of_field (by omega) hname hvalue
  | case4 l r hle => exact findBetween_sound hl hr h

end

theorem find_sound {name value : Bytes} {found : Match} (h : find name value = some found) :
    found.Sound name value := findLoop_sound (by decide) (by decide) h

theorem index_lt {name value : Bytes} {found : Match} (h : found.Sound name value) :
    found.index < length := by
  obtain ⟨value', hat⟩ := h.name_eq
  obtain ⟨entry, hentry, -⟩ := map_eq_some_iff.1 hat
  exact (List.getElem?_eq_some_iff.1 hentry).1

end StaticTable

end Xzero.Http.Hpack

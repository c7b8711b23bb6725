import Mathlib.Data.List.TakeWhile
import Xzero.Util.Buffer

/-!
# Range headers

`xzero/http/HttpRangeDef-inl.h`: the value of a `Range` header, with the tokenizer of
`xzero/Tokenizer.h` and `strtoul` of the C library. A range is a pair of numbers; `npos` stands for
one that is missing. The numbers are saturated at `npos`, too, and the second one may come after
blanks and a sign.

Against that, `requested` reads a header by its grammar, with numbers of any size. **A header of the
grammar is parsed to its ranges**, up to saturation (`parse_of_requested`).
-/

namespace Xzero.Util

/-- The loop of `tokenize`, with the token so far. -/
def tokenizeFrom (delimiter : UInt8) (token : Bytes) : Bytes → List Bytes
  | [] => if token = [] then [] else [token]
  | c :: rest =>
    if c = delimiter then
      if token = [] then tokenizeFrom delimiter [] rest
      else token :: tokenizeFrom delimiter [] rest
    else tokenizeFrom delimiter (token ++ [c]) rest

/-- `Tokenizer::tokenize`, with one delimiter: what stands between delimiters and is not empty. -/
def tokenize (input : Bytes) (delimiter : UInt8) : List Bytes := tokenizeFrom delimiter [] input

section Tokens

variable {d c : UInt8} {token input rest : Bytes}

theorem tokenizeFrom_append (hd : d ∉ input) :
    tokenizeFrom d token (input ++ rest) = tokenizeFrom d (token ++ input) rest := by
  induction input generalizing token with
  | nil => rw [List.nil_append, List.append_nil]
  | cons c input ih =>
    have hc : c ≠ d := fun heq ↦ hd (heq ▸ List.mem_cons_self)
    rw [List.cons_append, tokenizeFrom, if_neg hc, ih fun hmem ↦ hd (List.mem_cons_of_mem c hmem),
      List.append_assoc]
    rfl

theorem exists_of_mem_tokenizeFrom (hc : c ∈ token ∨ c ∈ input ∧ c ≠ d) :
    ∃ t ∈ tokenizeFrom d token input, c ∈ t := by
  induction input generalizing token with
  | nil =>
    have hmem : c ∈ token := hc.resolve_right fun h ↦ List.not_mem_nil h.1
    rw [tokenizeFrom, if_neg (List.ne_nil_of_mem hmem)]
    exact ⟨token, List.mem_cons_self, hmem⟩
  | cons a input ih =>
    rw [tokenizeFrom]
    split
    · next ha =>
      split
      · next hnil =>
        refine ih (.inr ?_)
        obtain ⟨hmem, hne⟩ := hc.resolve_left (by rw [hnil]; exact List.not_mem_nil)
        exact ⟨(List.mem_cons.1 hmem).resolve_left fun heq ↦ hne (heq.trans ha), hne⟩
      · rcases hc with hmem | ⟨hmem, hne⟩
        · exact ⟨token, List.mem_cons_self, hmem⟩
        · have hrest : ∃ t ∈ tokenizeFrom d [] input, c ∈ t := ih (.inr
            ⟨(List.mem_cons.1 hmem).resolve_left fun heq ↦ hne (heq.trans ha), hne⟩)
          obtain ⟨t, ht, hct⟩ := hrest
          exact ⟨t, List.mem_cons_of_mem _ ht, hct⟩
    · refine ih ?_
      rcases hc with hmem | ⟨hmem, hne⟩
      · exact .inl (List.mem_append_left _ hmem)
      · rcases List.mem_cons.1 hmem with rfl | hmem
        · exact .inl (List.mem_append_right _ List.mem_cons_self)
        · exact .inr ⟨hmem, hne⟩

theorem tokenize_pair (hd : d ∉ token) (hd' : d ∉ rest) (htoken : token ≠ []) (hrest : rest ≠ []) :
    tokenize (token ++ d :: rest) d = [token, rest] := by
  rw [tokenize, tokenizeFrom_append hd, List.nil_append, tokenizeFrom, if_pos rfl, if_neg htoken,
    ← List.append_nil rest, tokenizeFrom_append hd', List.nil_append, tokenizeFrom, if_neg hrest,
    List.append_nil]

end Tokens

end Xzero.Util

namespace Xzero.Http

open Util List Option

namespace RangeDef

/-- `npos`: the greatest `size_t`. -/
def npos : ℕ := 2 ^ 64 - 1

def isDigit (c : UInt8) : Bool := '0'.toUInt8 ≤ c && c ≤ '9'.toUInt8

def isSpace (c : UInt8) : Bool := c = 32 || (9 ≤ c && c ≤ 13)

def value (digits : Bytes) : ℕ := digits.foldl (fun n c ↦ 10 * n + (c.toNat - 48)) 0

def sign : Bytes → Bool × Bytes
  | c :: rest =>
    if c = '-'.toUInt8 then (true, rest) else if c = '+'.toUInt8 then (false, rest)
    else (false, c :: rest)
  | [] => (false, [])

/-- `strtoul`, with base 10: the number, and where it ends. A negative number is taken modulo `2 ^
64`, and one that is too large is `ULONG_MAX`. -/
def strtoul (text : Bytes) : ℕ × Bytes :=
  let (negative, rest) := sign (text.dropWhile isSpace)
  let digits := rest.takeWhile isDigit
  if digits = [] then (0, text)
  else
    let n := value digits
    (if 2 ^ 64 ≤ n then npos else if negative then (2 ^ 64 - n) % 2 ^ 64 else n,
      rest.dropWhile isDigit)

/-- `parseRangeSpec`: the range to append. -/
def parseRangeSpec (spec : Bytes) : Option (ℕ × ℕ) :=
  match spec with
  | [] => none
  | c :: _ =>
    let (a, rest) := if isDigit c then strtoul spec else (npos, spec)
    match rest with
    | [] => none
    | c :: rest =>
      if c = '-'.toUInt8 then
        if rest = [] then some (a, npos)
        else
          let (b, rest) := strtoul rest
          if rest = [] then some (a, b) else none
      else none

def bytesUnit : Bytes := ['b'.toUInt8, 'y'.toUInt8, 't'.toUInt8, 'e'.toUInt8, 's'.toUInt8]

/-- The loop of `parse`, over the tokens that are left. The unit's name is the token before; at the
beginning there is none. After a set of ranges, one more token is taken as the next name. -/
def parseLoop (unitName : Bytes) : List Bytes → Option (List (ℕ × ℕ))
  | [] => some []
  | token :: rest =>
    if unitName = bytesUnit then
      match (tokenize token ','.toUInt8).mapM parseRangeSpec, rest with
      | none, _ => none
      | some ranges, [] => some ranges
      | some ranges, next :: rest => (parseLoop next rest).map (ranges ++ ·)
    else parseLoop token rest

/-- `parse`: the ranges, or `false`. -/
def parse (text : Bytes) : Option (List (ℕ × ℕ)) := parseLoop [] (tokenize text '='.toUInt8)

end RangeDef

/-! ### The grammar -/

/-- A range of a request. -/
inductive ByteRange
  /-- `first-last` -/
  | between (first last : ℕ)
  /-- `first-` -/
  | starting (first : ℕ)
  /-- `-length` -/
  | suffix (length : ℕ)
  deriving DecidableEq, Repr

open RangeDef

namespace ByteRange

def read (spec : Bytes) : Option ByteRange :=
  let first := spec.takeWhile isDigit
  match spec.dropWhile isDigit with
  | [] => none
  | c :: last =>
    if c = '-'.toUInt8 ∧ last.all isDigit then
      if first = [] then if last = [] then none else some (.suffix (value last))
      else if last = [] then some (.starting (value first))
      else some (.between (value first) (value last))
    else none

/-- A number as `strtoul` has it. -/
def saturate (n : ℕ) : ℕ := min n npos

/-- The pair of numbers for a range. -/
def pair : ByteRange → ℕ × ℕ
  | between first last => (saturate first, saturate last)
  | starting first => (saturate first, npos)
  | suffix length => (npos, saturate length)

end ByteRange

/-- The ranges of a header: `bytes=`, and a list of them. -/
def requested (header : Bytes) : Option (List ByteRange) :=
  if bytesUnit ++ ['='.toUInt8] = header.take 6 then
    match tokenize (header.drop 6) ','.toUInt8 with
    | [] => none
    | specs => specs.mapM ByteRange.read
  else none

/-! ### Headers of the grammar -/

theorem digit_plain : ∀ c, isDigit c = true →
    isSpace c = false ∧ c ≠ '-'.toUInt8 ∧ c ≠ '+'.toUInt8 ∧ c ≠ '='.toUInt8 :=
  forall_uint8 (by decide +kernel)

variable {text : Bytes}

theorem strtoul_of_digit (h : text.takeWhile isDigit ≠ []) : strtoul text =
      (ByteRange.saturate (value (text.takeWhile isDigit)), text.dropWhile isDigit) := by
  obtain ⟨c, rest, rfl⟩ := exists_cons_of_ne_nil fun hnil : text = [] ↦ h (by rw [hnil]; rfl)
  have hc : isDigit c = true := by
    by_contra hc
    rw [takeWhile_cons_of_neg hc] at h
    exact h rfl
  obtain ⟨hspace, hminus, hplus, -⟩ := digit_plain c hc
  rw [strtoul, dropWhile_cons_of_neg (by simp [hspace]), sign, if_neg hminus, if_neg hplus]
  dsimp only
  rw [if_neg h, ByteRange.saturate, npos]
  congr 1
  split
  · omega
  · simp only [Bool.false_eq_true, if_false]
    omega

variable {spec : Bytes} {r : ByteRange}

/-- The spellings of a range: digits on both sides of a hyphen, and at least on one. -/
theorem ByteRange.read_eq_some (h : ByteRange.read spec = some r) :
    ∃ last : Bytes, spec = spec.takeWhile isDigit ++ '-'.toUInt8 :: last ∧
      spec.dropWhile isDigit = '-'.toUInt8 :: last ∧ last.all isDigit = true ∧
      ((spec.takeWhile isDigit = [] ∧ last ≠ [] ∧ r = .suffix (value last)) ∨
        spec.takeWhile isDigit ≠ [] ∧ (last = [] ∧ r = .starting (value (spec.takeWhile isDigit)) ∨
          last ≠ [] ∧ r = .between (value (spec.takeWhile isDigit)) (value last))) := by
  have happ := takeWhile_append_dropWhile (p := isDigit) (l := spec)
  rw [read] at h
  rcases hdrop : spec.dropWhile isDigit with - | ⟨c, last⟩
  · rw [hdrop] at h
    cases h
  · rw [hdrop] at h happ
    dsimp only at h
    split at h
    · next hc =>
      obtain ⟨rfl, hall⟩ := hc
      refine ⟨last, happ.symm, rfl, hall, ?_⟩
      split at h
      · next hfirst =>
        split at h
        · cases h
        · next hlast => exact Or.inl ⟨hfirst, hlast, (some.inj h).symm⟩
      · next hfirst =>
        split at h
        · next hlast => exact Or.inr ⟨hfirst, .inl ⟨hlast, (some.inj h).symm⟩⟩
        · next hlast => exact Or.inr ⟨hfirst, .inr ⟨hlast, (some.inj h).symm⟩⟩
    · cases h

theorem strtoul_of_all (htext : text ≠ []) (h : text.all isDigit = true) :
    strtoul text = (ByteRange.saturate (value text), []) := by
  have hall : ∀ c ∈ text, isDigit c = true := all_eq_true.1 h
  have htake : text.takeWhile isDigit = text := takeWhile_eq_self_iff.2 hall
  have hdrop : text.dropWhile isDigit = [] := dropWhile_eq_nil_iff.2 hall
  rw [strtoul_of_digit (by rwa [htake]), htake, hdrop]

theorem parseRangeSpec_of_read (h : ByteRange.read spec = some r) :
    parseRangeSpec spec = some r.pair := by
  obtain ⟨last, hspec, hdrop, hall, hr⟩ := ByteRange.read_eq_some h
  have hhyphen : isDigit '-'.toUInt8 = false := by decide
  rcases hr with ⟨hfirst, hlast, rfl⟩ | ⟨hne, hr⟩
  · rw [hfirst, nil_append] at hspec
    rw [hspec, parseRangeSpec]
    simp [hhyphen, hlast, strtoul_of_all hlast hall, ByteRange.pair]
  · rcases spec with - | ⟨d, rest⟩
    · exact absurd rfl hne
    · have hd : isDigit d = true := by
        by_contra hd
        exact hne (takeWhile_cons_of_neg hd)
      rw [parseRangeSpec]
      simp only [hd, if_true, strtoul_of_digit hne, hdrop]
      rcases hr with ⟨rfl, rfl⟩ | ⟨hlast, rfl⟩
      · rfl
      · simp only [if_neg hlast, strtoul_of_all hlast hall, if_true, ByteRange.pair]

theorem not_mem_of_read (h : ByteRange.read spec = some r) : '='.toUInt8 ∉ spec := by
  obtain ⟨last, hspec, -, hall, -⟩ := ByteRange.read_eq_some h
  have hequal : isDigit '='.toUInt8 = false := by decide
  intro hmem
  rw [hspec, mem_append, mem_cons] at hmem
  rcases hmem with hmem | hmem | hmem
  · exact absurd (mem_takeWhile_imp hmem) (by simp [hequal])
  · exact absurd hmem (by decide)
  · exact absurd (all_eq_true.1 hall _ hmem) (by simp [hequal])

variable {specs : List Bytes} {rs : List ByteRange}

theorem mapM_cons_eq_some {β : Type} {f : Bytes → Option β} {ys : List β}
    (h : (spec :: specs).mapM f = some ys) :
    ∃ y ys', f spec = some y ∧ specs.mapM f = some ys' ∧ ys = y :: ys' := by
  rw [mapM_cons, bind_eq_bind, bind_eq_some_iff] at h
  obtain ⟨y, hy, h⟩ := h
  obtain ⟨ys', hys, hout⟩ := bind_eq_some_iff.1 h
  exact ⟨y, ys', hy, hys, (some.inj hout).symm⟩

theorem mapM_of_read (h : specs.mapM ByteRange.read = some rs) :
    rs.length = specs.length ∧ (∀ spec ∈ specs, '='.toUInt8 ∉ spec) ∧
      specs.mapM parseRangeSpec = some (rs.map ByteRange.pair) := by
  induction specs generalizing rs with
  | nil =>
    obtain rfl := some.inj h
    exact ⟨rfl, fun _ hmem ↦ absurd hmem not_mem_nil, rfl⟩
  | cons spec specs ih =>
    obtain ⟨r, rs', hr, hrs, rfl⟩ := mapM_cons_eq_some h
    obtain ⟨hlen, hplain, hpairs⟩ := ih hrs
    refine ⟨congrArg (· + 1) hlen, forall_mem_cons.2 ⟨not_mem_of_read hr, hplain⟩, ?_⟩
    rw [mapM_cons, parseRangeSpec_of_read hr, hpairs]
    rfl

theorem parseLoop_bytes (token : Bytes) :
    parseLoop bytesUnit [token] = (tokenize token ','.toUInt8).mapM parseRangeSpec := by
  rw [parseLoop.eq_def]
  dsimp only
  cases (tokenize token ','.toUInt8).mapM parseRangeSpec <;> rfl

variable {unitName : Bytes}

theorem parseLoop_of_ne {token : Bytes} {rest : List Bytes} (h : unitName ≠ bytesUnit) :
    parseLoop unitName (token :: rest) = parseLoop token rest := by
  rw [parseLoop.eq_def]
  exact if_neg h

variable {header : Bytes}

/-- **Headers of the grammar** are parsed to their ranges. -/
theorem parse_of_requested
    (h : requested header = some rs) : rs ≠ [] ∧ parse header = some (rs.map ByteRange.pair) := by
  rw [requested] at h
  split at h
  · next hunit =>
    generalize hset : header.drop 6 = set at h
    obtain ⟨specs, hspecs⟩ : ∃ specs, tokenize set ','.toUInt8 = specs := ⟨_, rfl⟩
    have hne : specs ≠ [] := by
      rintro rfl
      rw [hspecs] at h
      cases h
    have hrs : specs.mapM ByteRange.read = some rs := by
      rw [hspecs] at h
      split at h
      · cases h
      · exact h
    obtain ⟨hlen, hplain, hpairs⟩ := mapM_of_read hrs
    refine ⟨fun hnil ↦ hne (length_eq_zero_iff.1 (by rw [← hlen, hnil]; rfl)), ?_⟩
    have hequal : '='.toUInt8 ∉ set := by
      intro hmem
      have htoken : ∃ t ∈ tokenizeFrom ','.toUInt8 [] set, '='.toUInt8 ∈ t :=
        exists_of_mem_tokenizeFrom (.inr ⟨hmem, by decide⟩)
      obtain ⟨t, ht, hequal⟩ := htoken
      exact hplain t (hspecs ▸ ht) hequal
    have hset' : set ≠ [] := by
      rintro rfl
      exact hne hspecs.symm
    have hheader : header = bytesUnit ++ '='.toUInt8 :: set := by
      rw [← take_append_drop 6 header, ← hunit, hset, append_assoc]
      rfl
    rw [hheader, parse, tokenize_pair (by decide) hequal (by decide) hset',
      parseLoop_of_ne (by decide), parseLoop_bytes, hspecs, hpairs]
  · cases h

/-! ### The numbers -/

theorem strtoul_le (text : Bytes) : (strtoul text).1 ≤ npos := by
  rw [strtoul, npos]
  split
  dsimp only
  split
  · exact Nat.zero_le _
  · split_ifs <;> omega

theorem parseRangeSpec_le {p : ℕ × ℕ} (h : parseRangeSpec spec = some p) :
    p.1 ≤ npos ∧ p.2 ≤ npos := by
  rcases spec with - | ⟨c, rest⟩
  · exact absurd h (by simp [parseRangeSpec])
  · have ha : (if isDigit c then strtoul (c :: rest) else (npos, c :: rest)).1 ≤ npos := by
      split
      · exact strtoul_le _
      · exact le_rfl
    rw [parseRangeSpec] at h
    generalize (if isDigit c then strtoul (c :: rest) else (npos, c :: rest)) = first at h ha
    rcases first with ⟨a, - | ⟨c, rest⟩⟩
    · cases h
    · dsimp only at h
      split at h
      · split at h
        · obtain rfl := some.inj h
          exact ⟨ha, le_rfl⟩
        · split at h
          · obtain rfl := some.inj h
            exact ⟨ha, strtoul_le rest⟩
          · cases h
      · cases h

variable {ps : List (ℕ × ℕ)}

theorem mapM_parseRangeSpec_le
    (h : specs.mapM parseRangeSpec = some ps) : ∀ p ∈ ps, p.1 ≤ npos ∧ p.2 ≤ npos := by
  induction specs generalizing ps with
  | nil =>
    obtain rfl := some.inj h
    exact fun _ hmem ↦ absurd hmem not_mem_nil
  | cons spec specs ih =>
    obtain ⟨p, ps', hp, hps, rfl⟩ := mapM_cons_eq_some h
    exact forall_mem_cons.2 ⟨parseRangeSpec_le hp, ih hps⟩

theorem parseLoop_le {tokens : List Bytes}
    (h : parseLoop unitName tokens = some ps) : ∀ p ∈ ps, p.1 ≤ npos ∧ p.2 ≤ npos := by
  fun_induction parseLoop unitName tokens generalizing ps with
  | case1 =>
    obtain rfl := some.inj h
    exact fun _ hmem ↦ absurd hmem not_mem_nil
  | case2 => cases h
  | case3 token ranges hranges =>
    obtain rfl := some.inj h
    exact mapM_parseRangeSpec_le hranges
  | case4 token ranges next rest hranges ih =>
    obtain ⟨ps', hps, rfl⟩ := map_eq_some_iff.1 h
    exact forall_mem_append.2 ⟨mapM_parseRangeSpec_le hranges, ih hps⟩
  | case5 unitName token rest hunit ih => exact ih h

theorem le_npos_of_parse (h : parse header = some ps) : ∀ p ∈ ps, p.1 ≤ npos ∧ p.2 ≤ npos :=
  parseLoop_le h

end Xzero.Http

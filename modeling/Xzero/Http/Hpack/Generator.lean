import Xzero.Http.Hpack.StaticTable
import Xzero.Http.Http1.Generator
import Xzero.Util.Binary

/-!
# The HPACK generator

`xzero::http::hpack::Generator` writes header fields to a block. It looks for them in the static and
in the dynamic table and writes an index or the strings; fields that are not sensitive go to the
dynamic table. Strings are not compressed: no caller asks for it.

`nameValueMatch` is not initialised in `generateHeader`. Where the static table has the name only,
it is read as it was; what it was comes with each call (`Call.header`).
-/

namespace Xzero.Http.Hpack

open Util StaticTable

structure Generator where
  dynamicTable : DynamicTable
  headerBlock : Bytes

namespace Generator

/-- `Generator(maxSize)`. -/
def init (maxSize : ℕ) : Generator := ⟨.init maxSize, []⟩

/-- The loop of `encodeInt`, and its last byte. -/
def encodeIntLoop (value : ℕ) : Bytes :=
  if 127 < value then UInt8.ofNat (0x80 ||| (value &&& 0x7f)) :: encodeIntLoop (value >>> 7)
  else [UInt8.ofNat value]
termination_by value
decreasing_by
  rw [Nat.shiftRight_eq_div_pow]
  omega

/-- `encodeInt(suffix, prefixBits, value, output)`. The suffix is only written if the value fits
behind it. -/
def encodeInt (suffix prefixBits value : ℕ) : Bytes :=
  let maxValue := 2 ^ prefixBits - 1
  if value < maxValue then [UInt8.ofNat (suffix <<< prefixBits ||| value)]
  else UInt8.ofNat maxValue :: encodeIntLoop (value - maxValue)

def encodeString (value : Bytes) : Bytes := encodeInt 0 7 value.length ++ value

/-- `headerBlock_.push_back`. -/
def push (g : Generator) (bytes : Bytes) : Generator := { g with headerBlock := g.headerBlock ++ bytes }

def addField (g : Generator) (name value : Bytes) : Option Generator :=
  (g.dynamicTable.add name value).map fun t ↦ { g with dynamicTable := t }

def setMaxSize (g : Generator) (maxSize : ℕ) : Option Generator :=
  (g.dynamicTable.setMaxSize maxSize).map fun t ↦
    { g with dynamicTable := t }.push (encodeInt 1 5 maxSize)

def clear (g : Generator) : Generator := { g with headerBlock := [] }

def encodeHeaderIndexed (g : Generator) (index : ℕ) (nameValueMatch : Bool) (name value : Bytes)
    (sensitive : Bool) : Option Generator :=
  if nameValueMatch then some (g.push (encodeInt 1 7 index))
  else if sensitive then some (g.push (encodeInt 1 4 index ++ encodeString value))
  else if fieldSize (name, value) < g.dynamicTable.maxSize then
    (g.addField name value).map fun g ↦ g.push (encodeInt 1 6 index ++ encodeString value)
  else some (g.push (encodeInt 0 4 index ++ encodeString value))

def encodeHeaderLiteral (g : Generator) (name value : Bytes) (sensitive : Bool) : Option Generator :=
  if sensitive then some (g.push (0x10 :: (encodeString name ++ encodeString value)))
  else if fieldSize (name, value) < g.dynamicTable.maxSize then
    (g.addField name value).map fun g ↦ g.push (0x40 :: (encodeString name ++ encodeString value))
  else some (g.push (0x00 :: (encodeString name ++ encodeString value)))

def toLower (name : Bytes) : Bytes := name.map Buffer.toLower

/-- `generateHeader`, with what `nameValueMatch` is before it is written. -/
def generateHeader (g : Generator) (field : HeaderField) (nameValueMatch : Bool) : Option Generator :=
  let lwrName := toLower field.name
  match find lwrName field.value with
  | some found =>
    g.encodeHeaderIndexed (found.index + 1) (found.nameValueMatch.getD nameValueMatch) lwrName field.value
      field.sensitive
  | none =>
    match g.dynamicTable.find lwrName field.value with
    | some (index, nameValueMatch) =>
      g.encodeHeaderIndexed (index + length) nameValueMatch lwrName field.value field.sensitive
    | none => g.encodeHeaderLiteral lwrName field.value field.sensitive

/-- What is done between two calls of `clear`. -/
inductive Call
  | setMaxSize (maxSize : ℕ)
  /-- A field of `generateHeaders`, and what `nameValueMatch` is before it is written. -/
  | header (field : HeaderField) (nameValueMatch : Bool)

def call (g : Generator) : Call → Option Generator
  | .setMaxSize maxSize => g.setMaxSize maxSize
  | .header field nameValueMatch => g.generateHeader field nameValueMatch

/-- **A block:** the calls after `clear`. -/
def block (g : Generator) (calls : List Call) : Option Generator := calls.foldlM call g.clear

end Generator

end Xzero.Http.Hpack

/-
**`elio::rpc`: serialization.**

A model of `rpc_types.hpp` and of what it uses of `rpc_buffer.hpp` and `rpc_endian.hpp`.  A schema
says how a type is put together: of arithmetic types and enums, strings, byte vectors, vectors,
arrays, maps, optionals and structs with their fields.  `serialize` and `deserialize` follow it, as
the templates do.  A `buffer_view` is what it has not read yet; a `buffer_writer` is what has been
appended to it.

A count on the wire is checked before anything is allocated for it: it may not be larger than the
cap, nor larger than what the rest of the buffer has room for when each element takes
`min_wire_size` bytes.

Main definitions:

* `Schema` — the types that can be sent;
* `minWireSize`, `checkContainerCount` — the check of a count;
* `zeroWidth` — the types whose values take no bytes at all.
-/

import Elio.ByteOrder
import Mathlib.Data.Vector.Defs

set_option autoImplicit false

namespace Elio.Rpc

/-- `max_message_size`: 16 MiB. -/
def maxMessageSize : ℕ := 16 * 1024 * 1024

/-- `max_container_count`. -/
def maxContainerCount : ℕ := maxMessageSize

/-! ### Buffers -/

/-- A computation that reads from a `buffer_view`: the state is what is left of it, and the error is
the text of a `serialization_error`. -/
abbrev Reader := StateT (List UInt8) (Except String)

/-- The next `n` bytes. -/
def readBytes (n : ℕ) (error : String) : Reader (List UInt8) := fun rest =>
  if rest.length < n then .error error else .ok (rest.take n, rest.drop n)

/-- `remaining`. -/
def remaining : Reader ℕ := fun rest => .ok (rest.length, rest)

/-- `read` of a number of `width` bytes. -/
def read (width : ℕ) : Reader ℕ := do
  let bs ← readBytes width "read past end of buffer"
  return leNat bs

/-- `read_string`. -/
def readString : Reader (List UInt8) := do
  let len ← read 4
  readBytes len "string length exceeds buffer"

/-- `read_blob`. -/
def readBlob : Reader (List UInt8) := do
  let len ← read 4
  readBytes len "blob length exceeds buffer"

/-- `read_array_size`. -/
def readArraySize : Reader ℕ := read 4

/-- `write_string`. -/
def writeString (s : List UInt8) : Except String (List UInt8) :=
  if 2 ^ 32 - 1 < s.length then .error "string too long" else .ok (leBytes 4 s.length ++ s)

/-- `write_array_size`; the size is cast to 32 bits. -/
def writeArraySize (n : ℕ) : List UInt8 := leBytes 4 n

/-! ### The types that can be sent -/

/-- How many bytes a number has. -/
inductive Width
  | w8
  | w16
  | w32
  | w64
  deriving DecidableEq, Repr

def Width.bytes : Width → ℕ
  | .w8 => 1
  | .w16 => 2
  | .w32 => 4
  | .w64 => 8

/-- `is_primitive`: integers, enums and floating-point numbers are their bits. -/
inductive Primitive : Type → Type
  | bool : Primitive Bool
  | word (w : Width) : Primitive (BitVec (8 * w.bytes))

/-- A `std::map` or `std::unordered_map`: its entries in the order in which it is traversed.  No key
is the same as an earlier one, in the sense of the comparison that the map was declared with. -/
structure MapOf {α : Type} (same : α → α → Bool) (β : Type) where
  entries : List (α × β)
  distinct : entries.Pairwise fun a b => same a.1 b.1 = false

mutual

/-- The types that can be sent. -/
inductive Schema : Type → Type 1
  | primitive {α : Type} (p : Primitive α) : Schema α
  | string : Schema (List UInt8)
  /-- `std::vector<uint8_t>`, which `deserialize_impl` has an overload for. -/
  | bytes : Schema (List UInt8)
  | vector {α : Type} (element : Schema α) : Schema (List α)
  | array {α : Type} (element : Schema α) (n : ℕ) : Schema (List.Vector α n)
  | map {α β : Type} (same : α → α → Bool) (key : Schema α) (value : Schema β) :
      Schema (MapOf same β)
  | optional {α : Type} (value : Schema α) : Schema (Option α)
  | struct {α : Type} (fields : Fields α) : Schema α

/-- The fields of an RPC struct, as in `ELIO_RPC_FIELDS` and `ELIO_RPC_EMPTY_FIELDS`. -/
inductive Fields : Type → Type 1
  | none : Fields Unit
  | field {α β : Type} (first : Schema α) (rest : Fields β) : Fields (α × β)

end

/-! ### Primitives -/

namespace Primitive

variable {α : Type}

/-- `sizeof`. -/
def size : Primitive α → ℕ
  | .bool => 1
  | .word w => w.bytes

/-- `write_le`. -/
def write : Primitive α → α → List UInt8
  | .bool, b => leBytes 1 (if b then 1 else 0)
  | .word w, n => leBytes w.bytes n.toNat

/-- `read_le`. -/
def ofNat : Primitive α → ℕ → α
  | .bool, n => n != 0
  | .word w, n => BitVec.ofNat _ n

end Primitive

/-! ### `serialize` -/

/-- The elements of a container, one after the other. -/
def writeAll {α : Type} (write : α → Except String (List UInt8)) :
    List α → Except String (List UInt8)
  | [] => .ok []
  | x :: xs => do
    let a ← write x
    let b ← writeAll write xs
    return a ++ b

/-- A key and its value. -/
def writeEntry {α β : Type} (key : α → Except String (List UInt8))
    (value : β → Except String (List UInt8)) (e : α × β) : Except String (List UInt8) := do
  let a ← key e.1
  let b ← value e.2
  return a ++ b

mutual

/-- `serialize`: the bytes that are appended to the writer. -/
def serialize : {α : Type} → Schema α → α → Except String (List UInt8)
  | _, .primitive p, x => .ok (p.write x)
  | _, .string, s => writeString s
  | _, .bytes, bs => .ok (writeArraySize bs.length ++ bs)
  | _, .vector element, xs => do
    let body ← writeAll (serialize element) xs
    return writeArraySize xs.length ++ body
  | _, .array element _, xs => writeAll (serialize element) xs.toList
  | _, .map _ key value, m => do
    let body ← writeAll (writeEntry (serialize key) (serialize value)) m.entries
    return writeArraySize m.entries.length ++ body
  | _, .optional value, x =>
    match x with
    | none => .ok [0]
    | some y => do
      let body ← serialize value y
      return 1 :: body
  | _, .struct fields, x => serializeFields fields x

/-- The fields of a struct, one after the other. -/
def serializeFields : {α : Type} → Fields α → α → Except String (List UInt8)
  | _, .none, _ => .ok []
  | _, .field first rest, x => do
    let a ← serialize first x.1
    let b ← serializeFields rest x.2
    return a ++ b

end

/-! ### `deserialize` -/

/-- `min_wire_size`.  Structs have the default. -/
def minWireSize : {α : Type} → Schema α → ℕ
  | _, .primitive p => p.size
  | _, .string => 4
  | _, .bytes => 4
  | _, .vector _ => 4
  | _, .array element n => n * minWireSize element
  | _, .map _ _ _ => 4
  | _, .optional _ => 1
  | _, .struct _ => 1

/-- `check_container_count`. -/
def checkContainerCount (minElemSize count : ℕ) : Reader Unit := fun rest =>
  if maxContainerCount < count then .error "container count exceeds max_container_count"
  else if 0 < minElemSize ∧ rest.length / minElemSize < count then
    .error "container count exceeds remaining buffer"
  else .ok ((), rest)

/-- `n` elements, one after the other. -/
def readAll {α : Type} (read : Reader α) : (n : ℕ) → Reader (List.Vector α n)
  | 0 => return .nil
  | n + 1 => do
    let x ← read
    let xs ← readAll read n
    return xs.cons x

/-- `emplace`: an entry whose key is there already is dropped. -/
def MapOf.emplace {α β : Type} {same : α → α → Bool} (m : MapOf same β) (key : α) (value : β) :
    MapOf same β :=
  if h : m.entries.any (fun e => same e.1 key) then m
  else
    ⟨m.entries ++ [(key, value)], by
      rw [List.pairwise_append]
      refine ⟨m.distinct, List.pairwise_singleton _ _, fun a ha b hb => ?_⟩
      rw [List.mem_singleton.1 hb]
      by_contra hsame
      exact h (List.any_eq_true.2 ⟨a, ha, by simpa using hsame⟩)⟩

/-- The loop that reads `n` entries into a map. -/
def readEntries {α β : Type} {same : α → α → Bool} (key : Reader α) (value : Reader β) :
    ℕ → MapOf same β → Reader (MapOf same β)
  | 0, m => return m
  | n + 1, m => do
    let k ← key
    let v ← value
    readEntries key value n (m.emplace k v)

mutual

/-- `deserialize`. -/
def deserialize : {α : Type} → Schema α → Reader α
  | _, .primitive p => do
    let n ← read p.size
    return p.ofNat n
  | _, .string => readString
  | _, .bytes => readBlob
  | _, .vector element => do
    let count ← readArraySize
    checkContainerCount (minWireSize element) count
    let xs ← readAll (deserialize element) count
    return xs.toList
  | _, .array element n => readAll (deserialize element) n
  | _, .map _ key value => do
    let count ← readArraySize
    checkContainerCount (minWireSize key + minWireSize value) count
    readEntries (deserialize key) (deserialize value) count ⟨[], .nil⟩
  | _, .optional value => do
    let hasValue ← read 1
    if hasValue ≠ 0 then
      let x ← deserialize value
      return some x
    else return none
  | _, .struct fields => deserializeFields fields

/-- The fields of a struct, one after the other. -/
def deserializeFields : {α : Type} → Fields α → Reader α
  | _, .none => return ()
  | _, .field first rest => do
    let x ← deserialize first
    let y ← deserializeFields rest
    return (x, y)

end

/-! ### Types without bytes -/

mutual

/-- The values of the type take no bytes at all: structs without fields, and what is built of
them. -/
def zeroWidth : {α : Type} → Schema α → Bool
  | _, .array element n => n = 0 || zeroWidth element
  | _, .struct fields => zeroWidthFields fields
  | _, .primitive _ | _, .string | _, .bytes | _, .vector _ | _, .map _ _ _ | _, .optional _ =>
    false

def zeroWidthFields : {α : Type} → Fields α → Bool
  | _, .none => true
  | _, .field first rest => zeroWidth first && zeroWidthFields rest

end

end Elio.Rpc

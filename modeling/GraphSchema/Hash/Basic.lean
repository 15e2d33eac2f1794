import GraphSchema.Text.Bytes
import GraphSchema.Text.Hex

/-!
The polynomial hash: from a seed, each component multiplies by a factor and adds, modulo 2 ^ 64.
-/

namespace GraphSchema.Hash

def seed : UInt64 := 1701

def factor : UInt64 := 31

/-- Takes one component in. -/
def step (h component : UInt64) : UInt64 :=
  h * factor + component

/-- the hash of an ordered list of hashes -/
def ofOrdered (items : List UInt64) : UInt64 :=
  items.foldl step seed

/-- the hash of a text: its bytes in order -/
def ofText (text : String) : UInt64 :=
  (Text.bytes text).foldl (fun h byte => step h byte.toUInt64) seed

/-- the hash of a text that may be missing -/
def ofText? (text : Option String) : UInt64 :=
  (text.map ofText).getD 0

/-- a hash as sixteen hexadecimal digits -/
def hex (h : UInt64) : String :=
  String.ofList ((List.range 16).reverse.map fun i => Text.lowerHex (h.toNat / Nat.pow 16 i % 16))

end GraphSchema.Hash

import ClassFormat.Attribute.Layout
import ClassFormat.ClassFile.Basic
import ClassFormat.Pool.Decode

/-! Decoding a whole class file, in one pass from its first byte to its last. -/
namespace ClassFormat

open Decoder

/-- Both names of a member are read before either is checked. -/
def Member.layout (set : FlagSet) (attributes : Layout Table) : Layout (Member set) :=
  .as { make := fun (flags, (name, descriptor), attributes) =>
          ⟨flags, name, descriptor, attributes⟩
        parts? := fun member =>
          some (member.flags, (member.name, member.descriptor), member.attributes) }
    (.seq (.flags set) (.seq (.indexPair (.oneOf [.utf8]) (.oneOf [.utf8])) attributes))

def Body.layout (attributes : Layout Table) : Layout Body :=
  .as { make := fun (flags, thisClass, superClass, interfaces, fields, methods, attributes) =>
          ⟨flags, thisClass, superClass, interfaces, fields, methods, attributes⟩
        parts? := fun body =>
          some (body.flags, body.thisClass, body.superClass, body.interfaces, body.fields,
            body.methods, body.attributes) }
    (.seq (.flags .ofClass) (.seq (.index .ownClass) (.seq (.optional .classRef)
      (.seq (.list (.reference .classRef))
        (.seq (.list (Member.layout .ofField attributes))
          (.seq (.list (Member.layout .ofMethod attributes)) attributes))))))

namespace ClassFile

/-- The first four bytes of every class file. -/
def magicNumber : UInt32 := 0xcafebabe

/-- How many levels of nesting a class file may have. -/
def maxNesting : Nat := 64

/-- Decodes a class file of at most `limit` levels of nesting. -/
def decodeWithin (limit : Nat) : Decoder ClassFile := do
  let magic : U4 ← read
  if magic.value ≠ magicNumber then throw (.wrongMagic magic.value)
  let minor ← read
  let major ← read
  let poolCount : U2 ← read
  let pool ← Pool.decode poolCount.toNat
  record (.poolDecoded pool.entries.length (← offset))
  let body ← (Body.layout (Table.layout limit limit)).decode pool
  let cursor := (← get).cursor
  if ¬ cursor.isEmpty then throw (.trailingBytes cursor.offset cursor.remaining)
  record (.classDecoded ⟨major.value, minor.value⟩ body.fields.items.length
    body.methods.items.length body.attributes.size)
  return { body with magic, minor, major, poolCount, pool }

/-- The class file or the first error, with all that was recorded up to there. -/
def run (bytes : Bytes) : EStateM.Result Error State ClassFile :=
  (decodeWithin maxNesting).run (start bytes)

def decode (bytes : Bytes) : Except Error ClassFile :=
  match run bytes with
  | .ok file _ => .ok file
  | .error cause _ => .error cause

end ClassFile
end ClassFormat

import ClassFormat.Pool.Basic
import ClassFormat.Decimal.Positional

/-! What an entry stands for, as text: a number, the text it refers to, or the member it
refers to written out in full. -/
namespace ClassFormat.Pool

/-- The class that stands in the place of the superclass where there is none. -/
def rootClass : String := "java/lang/Object"

/-- The text of an entry, where `follow` gives that of the target of a method handle: of all
entries only a method handle refers to one whose own text is needed. -/
def textThrough (pool : Pool) (follow : Nat → Except Error String) (index : Nat) :
    Except Error String := do
  match (← pool.get index).constant with
  | .utf8 _ text => return text
  | .integer number => return toString number.value.toInt
  | .float number => return number.value.text ++ "f"
  | .long number => return toString number.value.toInt ++ "l"
  | .double number => return number.value.text ++ "d"
  | .classRef name | .moduleRef name | .packageRef name => pool.text name.toNat
  | .string text => pool.text text.toNat
  | .methodType descriptor => pool.text descriptor.toNat
  | .fieldRef owner member | .methodRef owner member | .interfaceMethodRef owner member =>
    let owner ← pool.className owner.toNat
    let (name, descriptor) ← pool.nameAndType member.toNat
    return owner ++ "." ++ name ++ ":" ++ descriptor
  | .nameAndType name descriptor =>
    return (← pool.text name.toNat) ++ ":" ++ (← pool.text descriptor.toNat)
  | .methodHandle kind target =>
    match ReferenceKind.ofByte? kind.value with
    | some kind => return kind.label ++ " " ++ (← follow target.toNat)
    | none => throw (.unknownReferenceKind kind.value index)
  | .dynamic bootstrap member | .invokeDynamic bootstrap member =>
    let (name, descriptor) ← pool.nameAndType member.toNat
    return "#" ++ toString bootstrap.toNat ++ ":" ++ name ++ ":" ++ descriptor

/-- The text of an entry that is found behind fewer than `hops` method handles. -/
def textWithin (pool : Pool) : Nat → Nat → Except Error String
  | 0, index => .error (.endlessHandle index)
  | hops + 1, index => pool.textThrough (pool.textWithin hops) index

/-- A chain of more handles than there are slots never ends. -/
def resolve (pool : Pool) (index : Nat) : Except Error String :=
  pool.textWithin (pool.slots.size + 1) index

/-- The name of a superclass, where 0 stands for none. -/
def superName (pool : Pool) : Nat → Except Error String
  | 0 => .ok rootClass
  | index => pool.className index

end ClassFormat.Pool

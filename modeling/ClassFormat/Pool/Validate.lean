import ClassFormat.Pool.Basic

/-! Every entry of a pool names the kinds of the entries it refers to. A pool is valid if
each reference leads to an entry of one of those kinds, forward references included. -/
namespace ClassFormat

/-- The references of a constant and the kinds they may lead to, in the order in which
they are written. A method handle whose kind means nothing has none. -/
def Constant.references : Constant → List (Nat × List Tag)
  | .utf8 .. | .integer .. | .float .. | .long .. | .double .. => []
  | .classRef name | .moduleRef name | .packageRef name => [(name.toNat, [.utf8])]
  | .string text => [(text.toNat, [.utf8])]
  | .methodType descriptor => [(descriptor.toNat, [.utf8])]
  | .fieldRef owner member | .methodRef owner member | .interfaceMethodRef owner member =>
    [(owner.toNat, [.classRef]), (member.toNat, [.nameAndType])]
  | .nameAndType name descriptor => [(name.toNat, [.utf8]), (descriptor.toNat, [.utf8])]
  | .methodHandle kind target =>
    match ReferenceKind.ofByte? kind.value with
    | some kind => [(target.toNat, kind.targets)]
    | none => []
  | .dynamic _ member | .invokeDynamic _ member => [(member.toNat, [.nameAndType])]

/-- The first complaint of a list of checks. -/
def firstError (check : α → Except Error Unit) : List α → Except Error Unit
  | [] => .ok ()
  | item :: rest =>
    match check item with
    | .ok () => firstError check rest
    | .error cause => .error cause

namespace Pool

def checkReference (pool : Pool) (reference : Nat × List Tag) : Except Error Unit :=
  (pool.getOf reference.1 reference.2).map fun _ => ()

def checkEntry (pool : Pool) (entry : Entry) : Except Error Unit :=
  match entry.constant with
  | .methodHandle kind _ =>
    if (ReferenceKind.ofByte? kind.value).isNone then
      .error (.unknownReferenceKind kind.value entry.index)
    else firstError pool.checkReference entry.constant.references
  | constant => firstError pool.checkReference constant.references

/-- Entries are checked by increasing index. -/
def validate (pool : Pool) : Except Error Unit := firstError pool.checkEntry pool.entries

end Pool
end ClassFormat

import ClassFormat.ClassFile.Decode
import ClassFormat.Text.Columns

/-! A readable report on a class file: its header, its constant pool, its members with the
code of its methods, and its attributes. What is not a class file is complained about instead. -/
namespace ClassFormat

open Text.Columns

/-- Nothing is said of an entry that the pool cannot put into words. In a pool that was decoded there is none. -/
def Entry.line? (pool : Pool) (entry : Entry) : Option String :=
  match pool.resolve entry.index with
  | .ok text =>
    some ("  #" ++ left 4 (toString entry.index) ++ " " ++ left 18 entry.constant.tag.name
      ++ " " ++ text)
  | .error _ => none

/-- An instruction that refers to a constant is followed by what the constant stands for. -/
def Instruction.line (pool : Pool) (instruction : Instruction) : String :=
  let place := "  " ++ right 5 (toString instruction.pc) ++ ": "
  match instruction.poolIndex? with
  | some index =>
    place ++ left 16 instruction.mnemonic ++ " #" ++ left 4 (toString index) ++ " // "
      ++ (pool.resolve index).toOption.getD ""
  | none => place ++ instruction.mnemonic

def Frame.line (frame : Frame) : String := "  frame " ++ frame.name ++ s!" +{frame.delta}"

def Code.lines (pool : Pool) (code : Code) : List String :=
  s!"  stack={code.maxStack.value} locals={code.maxLocals.value} code_length={code.length.value}"
    :: code.instructions.toList.map (Instruction.line pool)
    ++ (match code.attributes.stackMap? with
      | some frames => frames.items.map Frame.line
      | none => [])

def Attribute.line (self : Attribute) : String :=
  "Attribute: " ++ self.name
    ++ s!" ({self.length.value} bytes at offset {self.nameIndex.offset})"

namespace ClassFile

/-- What a name that cannot be found is replaced by. -/
def shown (placeholder : String) (text : Except Error String) : String :=
  text.toOption.getD placeholder

def headerLines (file : ClassFile) : List String := [
  "Class: " ++ shown "<invalid>" file.className,
  "  version: " ++ file.version.text ++ " (Java " ++ file.version.release?.getD "" ++ ")",
  "  flags: " ++ file.flags.value.text,
  "  super: " ++ shown "<invalid>" file.superName]
  ++ (file.interfaceNames.toOption.getD []).map ("  implements: " ++ ·)

def fieldLine (file : ClassFile) (field : Member .ofField) : String :=
  "Field: " ++ field.flags.value.text ++ " " ++ shown "?" (field.descriptorIn file.pool) ++ " "
    ++ shown "?" (field.nameIn file.pool)

def methodLines (file : ClassFile) (method : Member .ofMethod) : List String :=
  ("Method: " ++ method.flags.value.text ++ " " ++ shown "?" (method.nameIn file.pool)
      ++ shown "?" (method.descriptorIn file.pool))
    :: (match method.attributes.code? with
      | some code => code.lines file.pool
      | none => [])

/-- One line for each entry of a pool that was decoded. -/
def poolLines (file : ClassFile) : List String :=
  file.pool.entries.filterMap (Entry.line? file.pool)

/-- The report, a blank line between its parts. -/
def dumpLines (file : ClassFile) : List String :=
  file.headerLines
    ++ "" :: "Constant pool:" :: file.poolLines
    ++ "" :: file.fields.items.map file.fieldLine
    ++ file.methods.items.flatMap file.methodLines
    ++ "" :: file.attributes.entries.map Attribute.line

/-- Every line is ended, the last one too. -/
def dump (file : ClassFile) : String := String.join (file.dumpLines.map (· ++ "\n"))

end ClassFile

/-- What a program leaves behind. -/
structure Outcome where
  status : UInt32
  output : String
  complaint : String
  deriving DecidableEq, Repr

/-- What comes of asking for a report on the bytes found under a path. -/
def ClassFile.report (path : String) (bytes : Bytes) : Outcome :=
  match decode bytes with
  | .ok file => ⟨0, file.dump, ""⟩
  | .error cause => ⟨1, "", "Failed to decode " ++ path ++ ": " ++ cause.message ++ "\n"⟩

end ClassFormat

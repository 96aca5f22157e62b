/-! Flag words. One bit means different things in different places (`0x0020` is `super`
on a class and `synchronized` on a method), so each place has its own set of flags. -/
namespace ClassFormat

/-- The places in a class file that hold a flag word. -/
inductive FlagSet where
  | ofClass
  | ofField
  | ofMethod
  | ofInnerClass
  | ofParameter
  | ofModule
  | ofRequires
  | ofExports
  deriving DecidableEq, Repr

namespace FlagSet

/-- The bits that have a meaning and their keywords, lowest bit first. -/
def keywords : FlagSet → List (UInt16 × String)
  | ofClass => [
    (0x0001, "public"), (0x0010, "final"), (0x0020, "super"), (0x0200, "interface"),
    (0x0400, "abstract"), (0x1000, "synthetic"), (0x2000, "annotation"),
    (0x4000, "enum"), (0x8000, "module")]
  | ofField => [
    (0x0001, "public"), (0x0002, "private"), (0x0004, "protected"), (0x0008, "static"),
    (0x0010, "final"), (0x0040, "volatile"), (0x0080, "transient"),
    (0x1000, "synthetic"), (0x4000, "enum")]
  | ofMethod => [
    (0x0001, "public"), (0x0002, "private"), (0x0004, "protected"), (0x0008, "static"),
    (0x0010, "final"), (0x0020, "synchronized"), (0x0040, "bridge"), (0x0080, "varargs"),
    (0x0100, "native"), (0x0400, "abstract"), (0x0800, "strict"), (0x1000, "synthetic")]
  | ofInnerClass => [
    (0x0001, "public"), (0x0002, "private"), (0x0004, "protected"), (0x0008, "static"),
    (0x0010, "final"), (0x0200, "interface"), (0x0400, "abstract"), (0x1000, "synthetic"),
    (0x2000, "annotation"), (0x4000, "enum")]
  | ofParameter => [(0x0010, "final"), (0x1000, "synthetic"), (0x8000, "mandated")]
  | ofModule => [(0x0020, "open"), (0x1000, "synthetic"), (0x8000, "mandated")]
  | ofRequires => [
    (0x0020, "transitive"), (0x0040, "static"), (0x1000, "synthetic"), (0x8000, "mandated")]
  | ofExports => [(0x1000, "synthetic"), (0x8000, "mandated")]

/-- Every bit that has a meaning. -/
def mask (set : FlagSet) : UInt16 := (set.keywords.map Prod.fst).foldl (· ||| ·) 0

end FlagSet

/-- A flag word in which only bits with a meaning are set. -/
structure Flags (set : FlagSet) where
  bits : UInt16
  within : bits &&& set.mask = bits
  deriving DecidableEq

namespace Flags

variable {set : FlagSet}

/-- Bits without a meaning are dropped. -/
def truncate (set : FlagSet) (word : UInt16) : Flags set :=
  ⟨word &&& set.mask, by rw [UInt16.and_assoc, UInt16.and_self]⟩

@[simp] theorem truncate_bits (flags : Flags set) : truncate set flags.bits = flags := by
  cases flags with | mk bits within => simp [truncate, within]

/-- The keywords of the bits that are set, lowest bit first. -/
def keywords (flags : Flags set) : List String :=
  (set.keywords.filter fun flag => flags.bits &&& flag.1 = flag.1).map Prod.snd

def text (flags : Flags set) : String := " ".intercalate flags.keywords

end Flags
end ClassFormat

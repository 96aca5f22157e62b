/-! The version of the format that a class file claims to follow, and the release of
the platform that introduced it. -/
namespace ClassFormat

structure Version where
  major : UInt16
  minor : UInt16
  deriving DecidableEq, Repr

namespace Version

/-- Major versions count; minor ones only tell equal major versions apart. -/
def order (a b : Version) : Ordering := (compare a.major b.major).then (compare a.minor b.minor)

instance : Ord Version := ⟨order⟩

def text (version : Version) : String :=
  toString version.major.toNat ++ "." ++ toString version.minor.toNat

/-- Releases count from major version 44; up to 48 they were numbered behind a `1.`. -/
def release? (version : Version) : Option String :=
  let number := version.major.toNat - 44
  if version.major < 45 then none
  else if version.major < 49 then some ("1." ++ toString number)
  else some (toString number)

/-- Files that use preview features are marked in the minor version. -/
def isPreview (version : Version) : Bool := 56 ≤ version.major && version.minor = 0xffff

end Version
end ClassFormat

namespace ShaderPack

/-!
# Target dialects

The dialect of a compilation follows from a numeric version code and a platform tag of four
bytes.  The tag of the Metal-like family decides alone, also when it is packed into the
version; otherwise the high bit of the version marks the embedded profiles.
-/

/-- A platform tag of four bytes. -/
structure PlatformTag where
  first : UInt8
  second : UInt8
  third : UInt8
  fourth : UInt8
  deriving DecidableEq, Repr

namespace PlatformTag

/-- No platform. -/
def none : PlatformTag := ⟨0, 0, 0, 0⟩

/-- The tag that selects the Metal-like dialect. -/
def metal : PlatformTag := ⟨'M'.toUInt8, 'T'.toUInt8, 'L'.toUInt8, 0⟩

/-- The bytes of a tag, in order. -/
def bytes (t : PlatformTag) : List UInt8 := [t.first, t.second, t.third, t.fourth]

/-- The tag as one number; its first byte is the lowest. -/
def code (t : PlatformTag) : UInt32 :=
  .ofNat (t.bytes.foldr (fun b n => b.toNat + 256 * n) 0)

/-- The text of a tag: one character for each byte before the first zero. -/
def text (t : PlatformTag) : String :=
  .ofList ((t.bytes.takeWhile (· != 0)).map fun b => Char.ofNat b.toNat)

end PlatformTag

/-- The shape of text that the optimizer produces. -/
inductive Dialect
  | desktopGL
  | gles2
  | gles3
  | metalLike
  deriving DecidableEq, Repr

namespace Dialect

/-- The bit of a version code that marks the embedded profiles. -/
def embeddedBit : Nat := 0x80000000

/-- The lowest embedded version of the third generation. -/
def gles3Version : Nat := 300

/-- The dialect of a version code and a platform tag. -/
def select (version : UInt32) (platform : PlatformTag) : Dialect :=
  if platform = .metal ∨ version = PlatformTag.metal.code then .metalLike
  else if version.toNat < embeddedBit then .desktopGL
  else if gles3Version ≤ version.toNat - embeddedBit then .gles3
  else .gles2

/-- Whether the dialect is the Metal-like one. -/
def isMetal (d : Dialect) : Bool := d = .metalLike

/-- The name of a dialect in the journal. -/
def name : Dialect → String
  | .desktopGL => "DesktopGL"
  | .gles2 => "GLES2"
  | .gles3 => "GLES3"
  | .metalLike => "MetalLike"

end Dialect

end ShaderPack

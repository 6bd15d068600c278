/-!
# Addresses

An address is an offset from the start of the section, plus the lengths of the spaces that lie
before it and are not known yet. Without such spaces it is a plain offset. Offsets are words of
32 bits and wrap.
-/

namespace MacroAssembler

/-- The number of a space: a stretch of the section whose length is found later. -/
structure SpaceId where
  index : Nat
  deriving DecidableEq, Inhabited

/-- The space as it is shown. -/
def SpaceId.text (s : SpaceId) : String := "space#" ++ toString s.index

/-- A place is aligned if it leaves the remainder `byte` when divided by `boundary`. -/
structure Alignment where
  byte : UInt32
  boundary : UInt32
  deriving DecidableEq

namespace Alignment

/-- Every place is aligned. -/
def none : Alignment := ⟨0, 1⟩

/-- Every second byte. -/
def halfword : Alignment := ⟨0, 2⟩

/-- Every fourth byte. -/
def fullword : Alignment := ⟨0, 4⟩

/-- Every eighth byte. -/
def doubleword : Alignment := ⟨0, 8⟩

/-- How many bytes the next aligned place is away from an offset. -/
def padding (a : Alignment) (offset : Int32) : Int32 :=
  Int32.ofInt ((a.byte.toInt32 - offset).toInt % (max a.boundary 1).toInt32.toInt)

end Alignment

/-- A place in the section. -/
structure Address where
  offset : Int32 := 0
  /-- The spaces before the place whose lengths are still to be added. -/
  spaces : List SpaceId := []
  deriving DecidableEq, Inhabited

namespace Address

/-- Some length is still to be added. -/
def hasSpaces (a : Address) : Bool := !a.spaces.isEmpty

/-- The place so many bytes further. -/
def shift (a : Address) (bytes : Int32) : Address := { a with offset := a.offset + bytes }

/-- The place behind one more space. -/
def behind (a : Address) (s : SpaceId) : Address := { a with spaces := a.spaces ++ [s] }

/-- The same spaces lie before both places, each as often. -/
def sameSpaces (a b : Address) : Bool := a.spaces.isPerm b.spaces

end Address

end MacroAssembler

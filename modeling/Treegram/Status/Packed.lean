import Treegram.Status.Code

/-!
# Status codes bit by bit

The parts of a status code put together and taken apart by shifts and masks.
-/

namespace Treegram

namespace StatusCode

def severityShift : UInt32 := 30

def groupShift : UInt32 := 16

def severityMask : UInt32 := 0b11

def groupMask : UInt32 := 0xFFF

def localMask : UInt32 := 0xFFFF

def failedBit : UInt32 := (1 : UInt32) <<< 31

/-- The code with the given parts, of a group its twelve low bits. -/
def pack (severity : Severity) (group localCode : UInt16) : StatusCode :=
  ⟨UInt32.ofNat severity.bits <<< severityShift |||
    (group.toUInt32 &&& groupMask) <<< groupShift ||| localCode.toUInt32⟩

def severityField (c : StatusCode) : Severity :=
  .ofBits ((c.raw >>> severityShift) &&& severityMask).toNat

def groupField (c : StatusCode) : UInt16 :=
  ((c.raw >>> groupShift) &&& groupMask).toUInt16

def localField (c : StatusCode) : UInt16 :=
  (c.raw &&& localMask).toUInt16

def hasFailedBit (c : StatusCode) : Bool :=
  c.raw &&& failedBit != 0

/-- The group and local code of `c` under another severity. -/
def repack (c : StatusCode) (severity : Severity) : StatusCode :=
  pack severity c.groupField c.localField

end StatusCode

end Treegram

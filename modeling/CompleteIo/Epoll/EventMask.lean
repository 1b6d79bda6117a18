import CompleteIo.Lib.Flags

namespace CompleteIo

namespace EventMask

def allBits : BitVec 32 := 0x1#32 ||| 0x4#32 ||| 0x2000#32 ||| 0x2#32 ||| 0x8#32 ||| 0x10#32

end EventMask

abbrev EventMask := Flags EventMask.allBits

namespace EventMask

def READ : EventMask := ⟨0x1#32, rfl⟩
def WRITE : EventMask := ⟨0x4#32, rfl⟩
def READ_HUP : EventMask := ⟨0x2000#32, rfl⟩
def EXCEPTIONAL : EventMask := ⟨0x2#32, rfl⟩
def ERROR : EventMask := ⟨0x8#32, rfl⟩
def HUP : EventMask := ⟨0x10#32, rfl⟩

/-- What the kernel reports for an enabled entry even when it was not asked for. -/
def always : EventMask := HUP ∪ ERROR

end EventMask

end CompleteIo

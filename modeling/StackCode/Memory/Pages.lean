import StackCode.Text.Number

/-!
# Pages

Memory is mapped in whole pages. Sizes and addresses are machine words: sums wrap
around, and the division that counts pages goes toward zero.
-/
namespace StackCode.Memory

/-- Bytes in a page, as a size. -/
def pageSize : Int64 := 4096

/-- The size in whole pages that `size` bytes need. -/
def pageRounded (size : Int64) : Int64 := pageSize * ((pageSize + size - 1) / pageSize)

/-- The end of the addresses that a process can map. -/
def addressSpace : Nat := 0x7ffffffff000

/-- The kernel's answer to a mapping that does not fit. -/
def outOfMemory : String := "cannot allocate memory"

/-- The kernel's answer to a mapping without a positive length. -/
def badLength : String := "invalid argument"

/-- The kernel's answer to a mapping over another one. -/
def occupied : String := "file exists"

end StackCode.Memory

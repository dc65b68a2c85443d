/-!
# Configuration
-/

set_option autoImplicit false

namespace TinyOlap

/-- Rows of a granule. -/
def granuleSize : Nat := 512

/-- Size of the uncompressed buffer before compression happens. -/
def blockBufferSize : Nat := 8 * 1024

def nWorkers : Nat := 4

theorem granuleSize_pos : 0 < granuleSize := by decide

end TinyOlap

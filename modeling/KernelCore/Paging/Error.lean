/-
# What paging refuses
-/
import KernelCore.Frame.Basic
import KernelCore.Paging.Address

namespace KernelCore

/-- Why an operation on address spaces is refused. -/
inductive PagingError where
  /-- There is no frame for a table or for the page. -/
  | outOfMemory
  | alreadyMapped (page : Page)
  | notMapped (page : Page)
  /-- The page is in the half that the space may not map. -/
  | outOfRange (page : Page)
  | alreadyEnabled
  /-- The space to tear down is the one that is loaded. -/
  | activeSpace
  /-- A frame of the space could not be returned. -/
  | frame (error : FrameError)
  deriving DecidableEq

namespace PagingError

/-- The error of the frame pool, seen from here: running out of frames is running out here too. -/
def ofFrame : FrameError → PagingError
  | .outOfMemory => .outOfMemory
  | e => .frame e

/-- All but a lack of frames mean that the owner of a space has lost track. -/
def isFatal : PagingError → Bool
  | .outOfMemory => false
  | .frame e => e.isFatal
  | _ => true

/-- The error in words. -/
def message : PagingError → Except Halt String
  | .outOfMemory => .ok "Out of frames for page tables"
  | .alreadyMapped page => .ok ("Page " ++ page.describe ++ " is already mapped")
  | .notMapped page => .ok ("Page " ++ page.describe ++ " is not mapped")
  | .outOfRange page =>
    .ok ("Page " ++ page.describe ++ " is outside this address space's half")
  | .alreadyEnabled => .ok "Paging was already enabled"
  | .activeSpace => .ok "Cannot destroy the active address space"
  | .frame e => e.message

end PagingError

end KernelCore

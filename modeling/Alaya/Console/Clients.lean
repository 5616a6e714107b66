import Alaya.Console.Fleet

/-!
# How each stack is seen, and what that confirms

The store is read before and after the metrics store, and what is judged must not move in between.  The
edge stack is judged from the report the store keeps of it, every other stack from its instances, and only
while the metrics store lists no stack the store does not count.
-/

namespace Alaya.Console

open Std (TreeMap TreeSet)
open Json

/-! ### One reading -/

structure Reading where
  store : Value
  fleet : Fleet
  tagStable : Bool

open Fleet

/-- The instances of a stack, as they are handed to the judgement. -/
def listed (up sets : List Series) (docs : Except String (List Series)) (behind : TreeSet String) (stack : String) :
    List Instance :=
  ((counted up sets docs behind).map fun _ instances => instances.toList.map Prod.snd)[stack]?.getD []

end Alaya.Console

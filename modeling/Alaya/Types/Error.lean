/-!
# Errors

`AlayaError`, one constructor for each kind of failure, with the message it carries and the text it
prints as.
-/

namespace Alaya

inductive AlayaError where
  | storage (message : String)
  | embedding (message : String)
  | graph (message : String)
  | config (message : String)
  | validation (message : String)
  | notFound (message : String)
  | summary (message : String)
  | rerank (message : String)
  | judge (message : String)
  | rateLimited (retryAfterSecs : Option Nat)
  | unavailable (message : String) (spent : Bool)
  | serialization (message : String)
  | conflict (message : String)
  | deletedWhileStoring (message : String)
  deriving DecidableEq, Repr

namespace AlayaError

/-- The text an error prints as. -/
def display : AlayaError → String
  | storage m => "vector storage error: " ++ m
  | embedding m => "embedding error: " ++ m
  | graph m => "graph error: " ++ m
  | config m => "configuration error: " ++ m
  | validation m => "validation error: " ++ m
  | notFound m => "not found: " ++ m
  | summary m => "summary generation error: " ++ m
  | rerank m => "rerank error: " ++ m
  | judge m => "contradiction judge error: " ++ m
  | rateLimited none => "upstream rate limited (retry-after: Nones)"
  | rateLimited (some n) => "upstream rate limited (retry-after: Some(" ++ toString n ++ ")s)"
  | unavailable m _ => "upstream unavailable: " ++ m
  | serialization m => "serialization error: " ++ m
  | conflict m => "conflict: " ++ m
  | deletedWhileStoring m => "deleted while storing: " ++ m

/-- The text a caller may see: no detail of the failure. -/
def safeMessage : AlayaError → String
  | storage _ => "Vector storage operation failed"
  | embedding _ => "Embedding generation failed"
  | graph _ => "Graph operation failed"
  | config _ => "Service configuration error"
  | validation _ => "Invalid request parameters"
  | notFound _ => "Resource not found"
  | summary _ => "Summary generation failed"
  | rerank _ => "Rerank operation failed"
  | judge _ => "Contradiction judge failed"
  | rateLimited _ => "Upstream rate limited"
  | unavailable .. => "Upstream temporarily unavailable"
  | serialization _ => "Invalid request format"
  | conflict _ => "Edge carries a verdict, a resolution or a refute's reason; " ++
      "resolve it (keep_both / supersede) instead of deleting"
  | deletedWhileStoring _ => "Memory was deleted while it was being stored; " ++
      "nothing of this store was kept. Store it again to recreate it"

end AlayaError

end Alaya

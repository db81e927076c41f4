import ErbTags.Text

/-!
# Naming conventions

The two texts that decide which names the generated code uses.
-/

namespace ErbTags

/-- The naming conventions of a project. -/
structure Conventions where
  /-- Added to the name of a tag to give the class that it renders. -/
  componentSuffix : Text
  /-- Starts the name of a tag that fills a slot. -/
  slotPrefix : Text
deriving DecidableEq, Repr

/-- The conventions of a project that sets none: `Card` renders `CardComponent`, and `WithHeader`
fills the slot `header`. -/
def Conventions.standard : Conventions := ⟨"Component".toList, "With".toList⟩

instance : Inhabited Conventions := ⟨.standard⟩

end ErbTags

import ErbTags.Cache.Store
import ErbTags.Entries

/-!
# A store in memory

Compiled templates in a list of pairs, under the displayed keys. Each key occurs once.
-/

namespace ErbTags

/-- Compiled templates by displayed key. -/
abbrev Memory := List (String × String)

namespace Memory

/-- The store that keeps everything in memory. -/
def store : Store (StateM Memory) where
  read key := fun entries => (.ok (entries.lookup key.display), entries)
  write key text := fun entries => (.ok (), Entries.set key.display text entries)
  clear := fun _ => (.ok (), [])

end Memory

end ErbTags

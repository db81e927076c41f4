import ErbTags.Name

/-!
# Generated fragments

The pieces of ERB that tags turn into. A call is written without its end, so that a block keyword,
and in time a block parameter, can follow it.
-/

namespace ErbTags.Fragment

/-- The keyword that opens a block. -/
def blockKeyword : Text := " do".toList

/-- The end of an ERB tag. -/
def close : Text := " %>".toList

/-- The tag that ends a block. -/
def endBlock : Text := "<% end %>".toList

/-- Arguments in parentheses; no parentheses if there are none. -/
def parenthesized (arguments : Text) : Text :=
  if arguments = [] then [] else '(' :: (arguments ++ [')'])

/-- Renders a component, up to the end of the call. -/
def renderCall (identifier arguments : Text) : Text :=
  "<%= render ".toList ++ identifier ++ ".new".toList ++ parenthesized arguments

/-- Fills a slot of the component behind `receiver`, up to the end of the call. -/
def slotCall (receiver slot arguments : Text) : Text :=
  "<% ".toList ++ receiver ++ ".with_".toList ++ slot ++ parenthesized arguments

/-- Declares the variable of a block, right after the block keyword. -/
def blockParameter (blockVariable : Text) : Text := " |".toList ++ blockVariable ++ ['|']

end ErbTags.Fragment

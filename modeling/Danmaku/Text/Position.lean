/-!
# Positions in a text

A place in a text is known by what is still unread there; it is told to a reader as an offset in
bytes, a line and a column.
-/

namespace Danmaku.Text

/-- Offsets count bytes from 0; lines, and characters within their line, count from 1. -/
structure Position where
  offset : Nat
  line : Nat
  column : Nat
deriving DecidableEq, Inhabited

namespace Position

/-- The position just after a text. -/
def after (cs : List Char) : Position where
  offset := cs.foldr (·.utf8Size + ·) 0
  line := cs.count '\n' + 1
  column := (cs.reverse.takeWhile (· != '\n')).length + 1

/-- The position in `cs` at which `rest` is still unread. -/
def ofRest (cs rest : List Char) : Position := after (cs.take (cs.length - rest.length))

end Position

end Danmaku.Text

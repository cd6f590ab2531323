/-! White space around texts. -/

namespace WireSchema.Blank

def isBlank (c : Char) : Bool :=
  c.isWhitespace || ['\x0b', '\x0c', '\u0085', '\u00a0', '\u1680', '\u2028', '\u2029', '\u202f',
    '\u205f', '\u3000'].contains c || ('\u2000' ≤ c && c ≤ '\u200a')

def trimEnd (text : List Char) : List Char :=
  (text.reverse.dropWhile isBlank).reverse

def trimmed (text : List Char) : List Char :=
  trimEnd (text.dropWhile isBlank)

end WireSchema.Blank

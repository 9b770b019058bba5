import Wildpath.Text.Basic
import Wildpath.Text.Printable

/-!
# Quoted text

How a text is shown inside a message: between quotes, on one line, with escapes for what would not
print. Single quotes are used unless the text holds one and no double quote.
-/

set_option autoImplicit false

namespace Wildpath.Text

def quoteFor (s : Text) : Char :=
  if s.contains '\'' && !s.contains '"' then '"' else '\''

/-- The shortest of the three numeric escapes that holds the code point. -/
def numericEscape (n : Nat) : Text :=
  if n ≤ 0xff then '\\' :: 'x' :: ofNat 16 2 n
  else if n ≤ 0xffff then '\\' :: 'u' :: ofNat 16 4 n
  else '\\' :: 'U' :: ofNat 16 8 n

def quotedChar (quote c : Char) : Text :=
  if c = quote || c = '\\' then ['\\', c]
  else if c = '\n' then ['\\', 'n']
  else if c = '\r' then ['\\', 'r']
  else if c = '\t' then ['\\', 't']
  else if isPrintable c then [c]
  else numericEscape c.toNat

def quoted (s : Text) : Text :=
  quoteFor s :: s.flatMap (quotedChar (quoteFor s)) ++ [quoteFor s]

end Wildpath.Text

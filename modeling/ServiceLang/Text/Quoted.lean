import ServiceLang.Text.Unprintable

/-!
Quoted text, as messages and dumps write strings.

A string stands between quotes.  A quote or backslash in it gets a backslash, the
usual control characters get their letters, and every other character without a
glyph of its own is written by its code point in hexadecimal.
-/

namespace ServiceLang.Text

/-- The code point in lower-case hexadecimal, between braces. -/
def byCodePoint (c : Char) : List Char :=
  '\\' :: 'u' :: '\x7b' :: (Nat.toDigits 16 c.toNat ++ ['\x7d'])

/-- How a character is written between quotes. -/
def quoteChar (c : Char) : List Char :=
  if c = '"' then ['\\', '"']
  else if c = '\\' then ['\\', '\\']
  else if c = '\n' then ['\\', 'n']
  else if c = '\r' then ['\\', 'r']
  else if c = '\t' then ['\\', 't']
  else if c = '\x00' then ['\\', '0']
  else if isUnprintable c then byCodePoint c
  else [c]

def quoted (s : String) : String :=
  String.ofList ('"' :: (s.toList.flatMap quoteChar ++ ['"']))

end ServiceLang.Text

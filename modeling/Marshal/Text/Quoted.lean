import Marshal.Text.Hidden

/-!
# Quoted text

Text in double quotes, as literals and values are written. The two differ in
what they escape: a literal escapes every character that would not show, a
value only the quote, the backslash, the line feed and the tab.
-/

namespace Marshal.Text

/-- Text in quotes, each character written by `escape`. -/
def quoteWith (escape : Char → List Char) (s : String) : String :=
  String.ofList ('"' :: (s.toList.flatMap escape ++ ['"']))

/-- A character by its number: a backslash, a `u` and hexadecimal digits in
braces. -/
def byNumber (c : Char) : List Char :=
  '\\' :: 'u' :: '\x7b' :: (Nat.toDigits 16 c.toNat ++ ['\x7d'])

/-- Escapes of a literal. -/
def literalEscape (c : Char) : List Char :=
  if c = '"' then ['\\', '"']
  else if c = '\\' then ['\\', '\\']
  else if c = '\n' then ['\\', 'n']
  else if c = '\t' then ['\\', 't']
  else if c = '\r' then ['\\', 'r']
  else if c.toNat = 0 then ['\\', '0']
  else if isHidden c then byNumber c
  else [c]

/-- Escapes of a value. -/
def valueEscape (c : Char) : List Char :=
  if c = '"' then ['\\', '"']
  else if c = '\\' then ['\\', '\\']
  else if c = '\n' then ['\\', 'n']
  else if c = '\t' then ['\\', 't']
  else [c]

def quoteLiteral (s : String) : String := quoteWith literalEscape s

def quoteValue (s : String) : String := quoteWith valueEscape s

end Marshal.Text

import Concordance.Text.Hidden

/-!
# Quoted text

A text in double quotes. The quote and the backslash are written behind a
backslash, four control characters have a letter of their own, and a hidden
character is written as its code point in hexadecimal between braces.
-/
namespace Concordance.Text

/-- A character written by its code point. -/
def byNumber (c : Char) : List Char :=
  '\\' :: 'u' :: '\x7b' :: (Nat.toDigits 16 c.toNat ++ ['\x7d'])

/-- One character as it stands inside the quotes. -/
def escape (c : Char) : List Char :=
  if c = '\x00' then ['\\', '0']
  else if c = '\t' then ['\\', 't']
  else if c = '\r' then ['\\', 'r']
  else if c = '\n' then ['\\', 'n']
  else if c = '"' then ['\\', '"']
  else if c = '\\' then ['\\', '\\']
  else if isHidden c then byNumber c
  else [c]

def quoted (text : String) : String :=
  String.ofList ('"' :: (text.toList.flatMap escape ++ ['"']))

-- A mark that extends a letter is shown by its number, a letter with the mark built in is not.
example : quoted "e\u0301\t" = "\"e\\u\x7b301\x7d\\t\"" := by decide +kernel
example : quoted "\u00e9'" = "\"\u00e9'\"" := by decide +kernel

end Concordance.Text

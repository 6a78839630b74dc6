/-!
# Quoted text

A text between double quotes, in which a backslash marks what is not written as itself: six
characters have a letter or sign of their own, and every other character that is not `plain`
is given by its code point. Which characters are plain is the caller's choice.
-/

namespace Exploration.Text

/-- A code point in lower-case hexadecimal between braces. -/
def codePoint (c : Char) : List Char :=
  '\\' :: 'u' :: '\x7b' :: (Nat.toDigits 16 c.toNat ++ ['\x7d'])

/-- How one character is written between quotes. -/
def escape (plain : Char → Bool) (c : Char) : List Char :=
  if c = '\x00' then ['\\', '0']
  else if c = '\t' then ['\\', 't']
  else if c = '\n' then ['\\', 'n']
  else if c = '\r' then ['\\', 'r']
  else if c = '"' then ['\\', '"']
  else if c = '\\' then ['\\', '\\']
  else if plain c then [c]
  else codePoint c

def quote (plain : Char → Bool) (cs : List Char) : List Char :=
  '"' :: (cs.flatMap (escape plain) ++ ['"'])

example : quote Char.isAlpha "a\"b\x1b".toList = "\"a\\\"b\\u\x7b1b\x7d\"".toList := by
  decide +kernel

end Exploration.Text

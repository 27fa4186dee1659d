import FuzzyRules.Text.Hex
import FuzzyRules.Text.Visible

/-!
# Quoted text

A quoted text stands between double quotes. Quote, backslash, NUL, tab, line feed and carriage
return have short escapes; any other character that is not visible is written by its code point in
lowercase hexadecimal digits.
-/

namespace FuzzyRules.Text

def quotedChar (c : Char) : List Char :=
  if c = '"' then ['\\', '"']
  else if c = '\\' then ['\\', '\\']
  else if c = '\n' then ['\\', 'n']
  else if c = '\r' then ['\\', 'r']
  else if c = '\t' then ['\\', 't']
  else if c = '\x00' then ['\\', '0']
  else if isVisible c then [c]
  else ['\\', 'u', '\x7b'] ++ hexDigits c.toNat ++ ['\x7d']

def quoted (s : String) : String :=
  String.ofList ('"' :: s.toList.flatMap quotedChar ++ ['"'])

end FuzzyRules.Text

import Introspect.Text.Digits
import Introspect.Text.Unprinted
/-!
# Quoted text

Text in double quotes, on one line and without characters that cannot be seen: these are written by their code point,
the usual ones by a letter.
-/
namespace Introspect
namespace Text

def escape (c : Char) : List Char :=
  if c = '\t' then ['\\', 't']
  else if c = '\r' then ['\\', 'r']
  else if c = '\n' then ['\\', 'n']
  else if c = '"' then ['\\', '"']
  else if c = '\\' then ['\\', '\\']
  else if c.toNat = 0 then ['\\', '0']
  else if isUnprinted c then ['\\', 'u', '\x7b'] ++ Nat.toDigits 16 c.toNat ++ ['\x7d']
  else [c]

def quoted (text : String) : String := String.ofList ('"' :: text.toList.flatMap escape ++ ['"'])

end Text
end Introspect

import FieldAccess.Text.Graphic

namespace FieldAccess.Text

-- The common controls have a letter, and every other character without a shape of its own is
-- written as its hexadecimal number in braces.
def quoteChar (c : Char) : List Char :=
  if c = '"' then ['\\', '"']
  else if c = '\\' then ['\\', '\\']
  else if c = '\n' then ['\\', 'n']
  else if c = '\r' then ['\\', 'r']
  else if c = '\t' then ['\\', 't']
  else if c = '\x00' then ['\\', '0']
  else if isGraphic c then [c]
  else ['\\', 'u', '\x7b'] ++ Nat.toDigits 16 c.toNat ++ ['\x7d']

def quoteChars (text : List Char) : List Char :=
  '"' :: (text.flatMap quoteChar ++ ['"'])

def quote (text : String) : String :=
  String.ofList (quoteChars text.toList)

end FieldAccess.Text

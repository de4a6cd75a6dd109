/- Names without a mark for UTF-8: each byte is a character of code page 437. -/
namespace Tabular.Archive

/-- The characters of the bytes from 128 on. -/
def upperHalf : List Char :=
  ("ÇüéâäàåçêëèïîìÄÅÉæÆôöòûùÿÖÜ¢£¥₧ƒ" ++ "áíóúñÑªº¿⌐¬½¼¡«»░▒▓│┤╡╢╖╕╣║╗╝╜╛┐" ++
    "└┴┬├─┼╞╟╚╔╩╦╠═╬╧╨╤╥╙╘╒╓╫╪┘┌█▄▌▐▀" ++ "αßΓπΣσµτΦΘΩδ∞φε∩≡±≥≤⌠⌡÷≈°∙·√ⁿ²■\u00a0").toList

def codePageChar (b : UInt8) : Char :=
  if b < 128 then Char.ofNat b.toNat else (upperHalf[b.toNat - 128]?).getD ' '

def decodeCodePage (bytes : List UInt8) : String := String.ofList (bytes.map codePageChar)

end Tabular.Archive

import Inlay.Text.CharClass

/-! Character references and backslash escapes, as they are decoded in an info string. -/

namespace Inlay
namespace Markdown

def latinNames : List (String × List Nat) := [
  ("AElig", [0xC6]), ("AMP", [0x26]), ("Aacute", [0xC1]), ("Abreve", [0x102]), ("Acirc", [0xC2]),
  ("Agrave", [0xC0]), ("Amacr", [0x100]), ("Aogon", [0x104]), ("Aring", [0xC5]),
  ("Atilde", [0xC3]), ("Auml", [0xC4]), ("COPY", [0xA9]), ("Cacute", [0x106]), ("Ccaron", [0x10C]),
  ("Ccedil", [0xC7]), ("Ccirc", [0x108]), ("Cdot", [0x10A]), ("Cedilla", [0xB8]),
  ("CenterDot", [0xB7]), ("Dcaron", [0x10E]), ("DiacriticalAcute", [0xB4]),
  ("DiacriticalGrave", [0x60]), ("Dot", [0xA8]), ("DoubleDot", [0xA8]), ("Dstrok", [0x110]),
  ("ENG", [0x14A]), ("ETH", [0xD0]), ("Eacute", [0xC9]), ("Ecaron", [0x11A]), ("Ecirc", [0xCA]),
  ("Edot", [0x116]), ("Egrave", [0xC8]), ("Emacr", [0x112]), ("Eogon", [0x118]), ("Euml", [0xCB]),
  ("GT", [0x3E]), ("Gbreve", [0x11E]), ("Gcedil", [0x122]), ("Gcirc", [0x11C]), ("Gdot", [0x120]),
  ("Hat", [0x5E]), ("Hcirc", [0x124]), ("Hstrok", [0x126]), ("IJlig", [0x132]), ("Iacute", [0xCD]),
  ("Icirc", [0xCE]), ("Idot", [0x130]), ("Igrave", [0xCC]), ("Imacr", [0x12A]), ("Iogon", [0x12E]),
  ("Itilde", [0x128]), ("Iuml", [0xCF]), ("Jcirc", [0x134]), ("Kcedil", [0x136]), ("LT", [0x3C]),
  ("Lacute", [0x139]), ("Lcaron", [0x13D]), ("Lcedil", [0x13B]), ("Lmidot", [0x13F]),
  ("Lstrok", [0x141]), ("Nacute", [0x143]), ("Ncaron", [0x147]), ("Ncedil", [0x145]),
  ("NewLine", [0xA]), ("NonBreakingSpace", [0xA0]), ("Ntilde", [0xD1]), ("OElig", [0x152]),
  ("Oacute", [0xD3]), ("Ocirc", [0xD4]), ("Odblac", [0x150]), ("Ograve", [0xD2]),
  ("Omacr", [0x14C]), ("Oslash", [0xD8]), ("Otilde", [0xD5]), ("Ouml", [0xD6]),
  ("PlusMinus", [0xB1]), ("QUOT", [0x22]), ("REG", [0xAE]), ("Racute", [0x154]),
  ("Rcaron", [0x158]), ("Rcedil", [0x156]), ("Sacute", [0x15A]), ("Scaron", [0x160]),
  ("Scedil", [0x15E]), ("Scirc", [0x15C]), ("THORN", [0xDE]), ("Tab", [0x9]), ("Tcaron", [0x164]),
  ("Tcedil", [0x162]), ("Tstrok", [0x166]), ("Uacute", [0xDA]), ("Ubreve", [0x16C]),
  ("Ucirc", [0xDB]), ("Udblac", [0x170]), ("Ugrave", [0xD9]), ("Umacr", [0x16A]),
  ("UnderBar", [0x5F]), ("Uogon", [0x172]), ("Uring", [0x16E]), ("Utilde", [0x168]),
  ("Uuml", [0xDC]), ("VerticalLine", [0x7C]), ("Wcirc", [0x174]), ("Yacute", [0xDD]),
  ("Ycirc", [0x176]), ("Yuml", [0x178]), ("Zacute", [0x179]), ("Zcaron", [0x17D]),
  ("Zdot", [0x17B]), ("aacute", [0xE1]), ("abreve", [0x103]), ("acirc", [0xE2]), ("acute", [0xB4]),
  ("aelig", [0xE6]), ("agrave", [0xE0]), ("amacr", [0x101]), ("amp", [0x26]), ("angst", [0xC5]),
  ("aogon", [0x105]), ("apos", [0x27]), ("aring", [0xE5]), ("ast", [0x2A]), ("atilde", [0xE3]),
  ("auml", [0xE4]), ("brvbar", [0xA6]), ("bsol", [0x5C]), ("cacute", [0x107]), ("ccaron", [0x10D]),
  ("ccedil", [0xE7]), ("ccirc", [0x109]), ("cdot", [0x10B]), ("cedil", [0xB8]), ("cent", [0xA2]),
  ("centerdot", [0xB7]), ("circledR", [0xAE]), ("colon", [0x3A]), ("comma", [0x2C]),
  ("commat", [0x40]), ("copy", [0xA9]), ("curren", [0xA4]), ("dcaron", [0x10F]), ("deg", [0xB0]),
  ("die", [0xA8]), ("div", [0xF7]), ("divide", [0xF7]), ("dollar", [0x24]), ("dstrok", [0x111]),
  ("eacute", [0xE9]), ("ecaron", [0x11B]), ("ecirc", [0xEA]), ("edot", [0x117]),
  ("egrave", [0xE8]), ("emacr", [0x113]), ("eng", [0x14B]), ("eogon", [0x119]), ("equals", [0x3D]),
  ("eth", [0xF0]), ("euml", [0xEB]), ("excl", [0x21]), ("fjlig", [0x66, 0x6A]), ("fnof", [0x192]),
  ("frac12", [0xBD]), ("frac14", [0xBC]), ("frac34", [0xBE]), ("gacute", [0x1F5]),
  ("gbreve", [0x11F]), ("gcirc", [0x11D]), ("gdot", [0x121]), ("grave", [0x60]), ("gt", [0x3E]),
  ("half", [0xBD]), ("hcirc", [0x125]), ("hstrok", [0x127]), ("iacute", [0xED]), ("icirc", [0xEE]),
  ("iexcl", [0xA1]), ("igrave", [0xEC]), ("ijlig", [0x133]), ("imacr", [0x12B]),
  ("imath", [0x131]), ("imped", [0x1B5]), ("inodot", [0x131]), ("iogon", [0x12F]),
  ("iquest", [0xBF]), ("itilde", [0x129]), ("iuml", [0xEF]), ("jcirc", [0x135]),
  ("jmath", [0x237]), ("kcedil", [0x137]), ("kgreen", [0x138]), ("lacute", [0x13A]),
  ("laquo", [0xAB]), ("lbrace", [0x7B]), ("lbrack", [0x5B]), ("lcaron", [0x13E]),
  ("lcedil", [0x13C]), ("lcub", [0x7B]), ("lmidot", [0x140]), ("lowbar", [0x5F]), ("lpar", [0x28]),
  ("lsqb", [0x5B]), ("lstrok", [0x142]), ("lt", [0x3C]), ("macr", [0xAF]), ("micro", [0xB5]),
  ("midast", [0x2A]), ("middot", [0xB7]), ("nacute", [0x144]), ("napos", [0x149]),
  ("nbsp", [0xA0]), ("ncaron", [0x148]), ("ncedil", [0x146]), ("not", [0xAC]), ("ntilde", [0xF1]),
  ("num", [0x23]), ("oacute", [0xF3]), ("ocirc", [0xF4]), ("odblac", [0x151]), ("oelig", [0x153]),
  ("ograve", [0xF2]), ("omacr", [0x14D]), ("ordf", [0xAA]), ("ordm", [0xBA]), ("oslash", [0xF8]),
  ("otilde", [0xF5]), ("ouml", [0xF6]), ("para", [0xB6]), ("percnt", [0x25]), ("period", [0x2E]),
  ("plus", [0x2B]), ("plusmn", [0xB1]), ("pm", [0xB1]), ("pound", [0xA3]), ("quest", [0x3F]),
  ("quot", [0x22]), ("racute", [0x155]), ("raquo", [0xBB]), ("rbrace", [0x7D]), ("rbrack", [0x5D]),
  ("rcaron", [0x159]), ("rcedil", [0x157]), ("rcub", [0x7D]), ("reg", [0xAE]), ("rpar", [0x29]),
  ("rsqb", [0x5D]), ("sacute", [0x15B]), ("scaron", [0x161]), ("scedil", [0x15F]),
  ("scirc", [0x15D]), ("sect", [0xA7]), ("semi", [0x3B]), ("shy", [0xAD]), ("sol", [0x2F]),
  ("strns", [0xAF]), ("sup1", [0xB9]), ("sup2", [0xB2]), ("sup3", [0xB3]), ("szlig", [0xDF]),
  ("tcaron", [0x165]), ("tcedil", [0x163]), ("thorn", [0xFE]), ("times", [0xD7]),
  ("tstrok", [0x167]), ("uacute", [0xFA]), ("ubreve", [0x16D]), ("ucirc", [0xFB]),
  ("udblac", [0x171]), ("ugrave", [0xF9]), ("umacr", [0x16B]), ("uml", [0xA8]), ("uogon", [0x173]),
  ("uring", [0x16F]), ("utilde", [0x169]), ("uuml", [0xFC]), ("verbar", [0x7C]), ("vert", [0x7C]),
  ("wcirc", [0x175]), ("yacute", [0xFD]), ("ycirc", [0x177]), ("yen", [0xA5]), ("yuml", [0xFF]),
  ("zacute", [0x17A]), ("zcaron", [0x17E]), ("zdot", [0x17C])]

def replacement : Nat := 0xFFFD

/-- Numbers that stand for no character of a document: most control characters, surrogates,
noncharacters and whatever lies beyond the last code point. -/
def isForbidden (n : Nat) : Bool :=
  n < 9 || n == 11 || (13 < n && n < 32) || (126 < n && n < 160) || (0xD7FF < n && n < 0xE000)
    || (0xFDCF < n && n < 0xFDF0) || n % 0x10000 == 0xFFFE || n % 0x10000 == 0xFFFF || 0x10FFFF < n

def ofCodePoint (n : Nat) : Text :=
  String.utf8EncodeChar (Char.ofNat (if isForbidden n then replacement else n))

/-- Digits of a reference up to its semicolon, of which there are between one and `most`. -/
def referenceDigits? (isDigit : UInt8 → Bool) (most : Nat) (t : Text) : Option (Text × Text) :=
  let digits := t.takeWhile isDigit
  match t.dropWhile isDigit with
  | 59 :: rest => if digits.isEmpty || most < digits.length then none else some (digits, rest)
  | _ => none

def hexNatural (t : Text) : Nat := t.foldl (fun n b => 16 * n + (Text.hexValue? b).getD 0) 0

def reference? : Text → Option (Text × Text)
  | 35 :: 120 :: t => hexadecimal? t
  | 35 :: 88 :: t => hexadecimal? t
  | 35 :: t =>
    (referenceDigits? Text.isDigit 7 t).map fun (digits, rest) =>
      (ofCodePoint (Text.naturalOfDigits digits), rest)
  | t => do
    let (name, rest) ← referenceDigits? Text.isAlphanumeric 31 t
    let points ← latinNames.lookup name.toStringLossy
    some (points.flatMap fun n => String.utf8EncodeChar (Char.ofNat n), rest)
where
  hexadecimal? (t : Text) : Option (Text × Text) :=
    (referenceDigits? (fun b => (Text.hexValue? b).isSome) 6 t).map fun (digits, rest) =>
      (ofCodePoint (hexNatural digits), rest)

def decodeString : Nat → Text → Text
  | 0, t => t
  | _, [] => []
  | fuel + 1, 92 :: b :: t =>
    if Text.isAsciiPunctuation b then b :: decodeString fuel t
    else 92 :: decodeString fuel (b :: t)
  | fuel + 1, 38 :: t =>
    match reference? t with
    | some (decoded, rest) => decoded ++ decodeString fuel rest
    | none => 38 :: decodeString fuel t
  | fuel + 1, b :: t => b :: decodeString fuel t

/-- The text that a string with escapes and references stands for. -/
def decoded (t : Text) : Text := decodeString t.length t

end Markdown
end Inlay

import VulcanDB.Library.CxxString

/-!
# Ifcparse — Characters of a STEP file

A string of a STEP file writes what lies outside `0x20..0x7e` in printable characters:
`IfcCharacterEncoder` writes it so, and the decoder reads it back, with a mask of flags as its
whole state.  `IfcSpfLexer::Next` passes over a string with `skip`, and `TokenString` reads it
later with `get`, which are two copies of one loop.  The characters of a file are its bytes, in
which the cursor passes over line breaks.

* `scan_text`: the loop on a file is the loop on the text without its line breaks.
* `get_agrees_skip`: the two copies end alike, but for what `get` alone converts.
-/

namespace VulcanDB.Ifcparse

open Cxx

/-! ### The cursor -/

/-- `\n` or `\r`, which the cursor does not stop at. -/
def isNewline (c : Char) : Bool := c == '\n' || c == '\r'

/-- What is ahead of the cursor after `Inc`, and after `increment_at`. -/
def inc (left : Str) : Str := left.tail.dropWhile isNewline

/-- A `char`, which is signed, as a number. -/
def signed (c : Char) : ℤ := (c.toNat : ℤ).bmod 256

/-! ### The flags -/

/-- `parse_state`. -/
abbrev Flags := BitVec 32

/-- `FIRST_SOLIDUS`. -/
def firstSolidus : Flags := 1 <<< 1
/-- `PAGE`. -/
def page : Flags := 1 <<< 2
/-- `ALPHABET`. -/
def alphabet : Flags := 1 <<< 3
/-- `SECOND_SOLIDUS`. -/
def secondSolidus : Flags := 1 <<< 4
/-- `ALPHABET_DEFINITION`. -/
def alphabetDefinition : Flags := 1 <<< 5
/-- `APOSTROPHE`. -/
def apostrophe : Flags := 1 <<< 6
/-- `ARBITRARY`. -/
def arbitrary : Flags := 1 <<< 7
/-- `EXTENDED2`. -/
def extended2 : Flags := 1 <<< 8
/-- `EXTENDED4`. -/
def extended4 : Flags := 1 <<< 9
/-- `HEX(n)`. -/
def hexN (n : ℕ) : Flags := 1 <<< (9 + n)
/-- `THIRD_SOLIDUS`. -/
def thirdSolidus : Flags := 1 <<< 18
/-- `ENDEXTENDED_X`. -/
def endextendedX : Flags := 1 <<< 19
/-- `ENDEXTENDED_0`. -/
def endextended0 : Flags := 1 <<< 20
/-- `IGNORED_DIRECTIVE`. -/
def ignoredDirective : Flags := 1 <<< 22
/-- `ENCOUNTERED_HEX`. -/
def encounteredHex : Flags := 1 <<< 23

/-- `s & f`, as a condition. -/
def has (s f : Flags) : Bool := s &&& f != 0

/-- `EXPECTS_ALPHABET`. -/
def expectsAlphabet (s : Flags) : Bool := has s firstSolidus
/-- `EXPECTS_PAGE`. -/
def expectsPage (s : Flags) : Bool := has s firstSolidus
/-- `EXPECTS_ARBITRARY`. -/
def expectsArbitrary (s : Flags) : Bool := has s firstSolidus
/-- `EXPECTS_N_OR_F`. -/
def expectsNOrF (s : Flags) : Bool := has s firstSolidus && !has s arbitrary
/-- `EXPECTS_ARBITRARY2`. -/
def expectsArbitrary2 (s : Flags) : Bool := has s arbitrary && !has s secondSolidus
/-- `EXPECTS_ALPHABET_DEFINITION`. -/
def expectsAlphabetDefinition (s : Flags) : Bool := has s firstSolidus && has s alphabet
/-- `EXPECTS_SOLIDUS`. -/
def expectsSolidus (s : Flags) : Bool :=
  has s alphabetDefinition || has s page || has s arbitrary || has s extended2 ||
    has s extended4 || has s endextended0 || has s ignoredDirective ||
    (has s extended4 && has s (hexN 8)) || (has s extended2 && has s (hexN 4))
/-- `EXPECTS_CHARACTER`. -/
def expectsCharacter (s : Flags) : Bool := has s page && has s secondSolidus
/-- `EXPECTS_HEX`. -/
def expectsHex (s : Flags) : Bool :=
  has s (hexN 1) || has s (hexN 3) || has s (hexN 5) || has s (hexN 6) || has s (hexN 7) ||
    (has s arbitrary && has s secondSolidus) || (has s extended2 && has s (hexN 2)) ||
    (has s extended4 && has s (hexN 4))
/-- `EXPECTS_ENDEXTENDED_X`. -/
def expectsEndextendedX (s : Flags) : Bool := has s thirdSolidus
/-- `EXPECTS_ENDEXTENDED_0`. -/
def expectsEndextended0 (s : Flags) : Bool := has s endextendedX

/-- `IS_VALID_ALPHABET_DEFINITION`: one of `A` to `I`. -/
def isValidAlphabetDefinition (c : Char) : Bool := 0x41 ≤ c.toNat && c.toNat ≤ 0x49

/-- `IS_HEXADECIMAL`: of small letters none. -/
def isHexadecimal (c : Char) : Bool :=
  (0x30 ≤ c.toNat && c.toNat ≤ 0x39) || (0x41 ≤ c.toNat && c.toNat ≤ 0x46)

/-- `HEX_TO_INT`. -/
def hexToInt (c : Char) : ℕ :=
  if 0x30 ≤ c.toNat ∧ c.toNat ≤ 0x39 then c.toNat - 0x30 else c.toNat + 10 - 0x41

/-- `CLEAR_HEX`. -/
def clearHex (s : Flags) : Flags :=
  s &&& ~~~(hexN 1 ||| hexN 2 ||| hexN 3 ||| hexN 4 ||| hexN 5 ||| hexN 6 ||| hexN 7 ||| hexN 8)

/-- Whether a solidus of these flags ends a directive. -/
def endsDirective (s : Flags) : Bool :=
  has s alphabetDefinition || has s ignoredDirective || has s endextended0

/-- Whether the digits read make a character. -/
def isComplete (hexCount : ℕ) (s : Flags) : Bool :=
  (hexCount == 2 && !has s extended2) || (hexCount == 4 && !has s extended4) || hexCount == 8

/-! ### Code pages -/

/-- `codepage_data` from `160` on.  Below, each page but the twelfth holds the code itself. -/
def codepageData : List (List ℕ) :=
  [[160, 161, 162, 163, 164, 165, 166, 167, 168, 169, 170, 171, 172, 173, 174, 175, 176, 177, 178,
    179, 180, 181, 182, 183, 184, 185, 186, 187, 188, 189, 190, 191, 192, 193, 194, 195, 196, 197,
    198, 199, 200, 201, 202, 203, 204, 205, 206, 207, 208, 209, 210, 211, 212, 213, 214, 215, 216,
    217, 218, 219, 220, 221, 222, 223, 224, 225, 226, 227, 228, 229, 230, 231, 232, 233, 234, 235,
    236, 237, 238, 239, 240, 241, 242, 243, 244, 245, 246, 247, 248, 249, 250, 251, 252, 253, 254,
    255],
   [160, 260, 728, 321, 164, 317, 346, 167, 168, 352, 350, 356, 377, 173, 381, 379, 176, 261, 731,
    322, 180, 318, 347, 711, 184, 353, 351, 357, 378, 733, 382, 380, 340, 193, 194, 258, 196, 313,
    262, 199, 268, 201, 280, 203, 282, 205, 206, 270, 272, 323, 327, 211, 212, 336, 214, 215, 344,
    366, 218, 368, 220, 221, 354, 223, 341, 225, 226, 259, 228, 314, 263, 231, 269, 233, 281, 235,
    283, 237, 238, 271, 273, 324, 328, 243, 244, 337, 246, 247, 345, 367, 250, 369, 252, 253, 355,
    729],
   [160, 294, 728, 163, 164, 0, 292, 167, 168, 304, 350, 286, 308, 173, 0, 379, 176, 295, 178, 179,
    180, 181, 293, 183, 184, 305, 351, 287, 309, 189, 0, 380, 192, 193, 194, 0, 196, 266, 264, 199,
    200, 201, 202, 203, 204, 205, 206, 207, 0, 209, 210, 211, 212, 288, 214, 215, 284, 217, 218,
    219, 220, 364, 348, 223, 224, 225, 226, 0, 228, 267, 265, 231, 232, 233, 234, 235, 236, 237,
    238, 239, 0, 241, 242, 243, 244, 289, 246, 247, 285, 249, 250, 251, 252, 365, 349, 729],
   [160, 260, 312, 342, 164, 296, 315, 167, 168, 352, 274, 290, 358, 173, 381, 175, 176, 261, 731,
    343, 180, 297, 316, 711, 184, 353, 275, 291, 359, 330, 382, 331, 256, 193, 194, 195, 196, 197,
    198, 302, 268, 201, 280, 203, 278, 205, 206, 298, 272, 325, 332, 310, 212, 213, 214, 215, 216,
    370, 218, 219, 220, 360, 362, 223, 257, 225, 226, 227, 228, 229, 230, 303, 269, 233, 281, 235,
    279, 237, 238, 299, 273, 326, 333, 311, 244, 245, 246, 247, 248, 371, 250, 251, 252, 361, 363,
    729],
   [160, 1025, 1026, 1027, 1028, 1029, 1030, 1031, 1032, 1033, 1034, 1035, 1036, 173, 1038, 1039,
    1040, 1041, 1042, 1043, 1044, 1045, 1046, 1047, 1048, 1049, 1050, 1051, 1052, 1053, 1054, 1055,
    1056, 1057, 1058, 1059, 1060, 1061, 1062, 1063, 1064, 1065, 1066, 1067, 1068, 1069, 1070, 1071,
    1072, 1073, 1074, 1075, 1076, 1077, 1078, 1079, 1080, 1081, 1082, 1083, 1084, 1085, 1086, 1087,
    1088, 1089, 1090, 1091, 1092, 1093, 1094, 1095, 1096, 1097, 1098, 1099, 1100, 1101, 1102, 1103,
    8470, 1105, 1106, 1107, 1108, 1109, 1110, 1111, 1112, 1113, 1114, 1115, 1116, 167, 1118, 1119],
   [160, 0, 0, 0, 164, 0, 0, 0, 0, 0, 0, 0, 1548, 173, 0, 0, 0, 0, 0, 0, 0, 0, 0, 0, 0, 0, 0, 1563,
    0, 0, 0, 1567, 0, 1569, 1570, 1571, 1572, 1573, 1574, 1575, 1576, 1577, 1578, 1579, 1580, 1581,
    1582, 1583, 1584, 1585, 1586, 1587, 1588, 1589, 1590, 1591, 1592, 1593, 1594, 0, 0, 0, 0, 0,
    1600, 1601, 1602, 1603, 1604, 1605, 1606, 1607, 1608, 1609, 1610, 1611, 1612, 1613, 1614, 1615,
    1616, 1617, 1618, 0, 0, 0, 0, 0, 0, 0, 0, 0, 0, 0, 0, 0],
   [160, 8216, 8217, 163, 8364, 8367, 166, 167, 168, 169, 890, 171, 172, 173, 0, 8213, 176, 177,
    178, 179, 900, 901, 902, 183, 904, 905, 906, 187, 908, 189, 910, 911, 912, 913, 914, 915, 916,
    917, 918, 919, 920, 921, 922, 923, 924, 925, 926, 927, 928, 929, 0, 931, 932, 933, 934, 935,
    936, 937, 938, 939, 940, 941, 942, 943, 944, 945, 946, 947, 948, 949, 950, 951, 952, 953, 954,
    955, 956, 957, 958, 959, 960, 961, 962, 963, 964, 965, 966, 967, 968, 969, 970, 971, 972, 973,
    974, 0],
   [160, 0, 162, 163, 164, 165, 166, 167, 168, 169, 215, 171, 172, 173, 174, 175, 176, 177, 178,
    179, 180, 181, 182, 183, 184, 185, 247, 187, 188, 189, 190, 0, 0, 0, 0, 0, 0, 0, 0, 0, 0, 0, 0,
    0, 0, 0, 0, 0, 0, 0, 0, 0, 0, 0, 0, 0, 0, 0, 0, 0, 0, 0, 0, 8215, 1488, 1489, 1490, 1491, 1492,
    1493, 1494, 1495, 1496, 1497, 1498, 1499, 1500, 1501, 1502, 1503, 1504, 1505, 1506, 1507, 1508,
    1509, 1510, 1511, 1512, 1513, 1514, 0, 0, 8206, 8207, 0],
   [160, 161, 162, 163, 164, 165, 166, 167, 168, 169, 170, 171, 172, 173, 174, 175, 176, 177, 178,
    179, 180, 181, 182, 183, 184, 185, 186, 187, 188, 189, 190, 191, 192, 193, 194, 195, 196, 197,
    198, 199, 200, 201, 202, 203, 204, 205, 206, 207, 286, 209, 210, 211, 212, 213, 214, 215, 216,
    217, 218, 219, 220, 304, 350, 223, 224, 225, 226, 227, 228, 229, 230, 231, 232, 233, 234, 235,
    236, 237, 238, 239, 287, 241, 242, 243, 244, 245, 246, 247, 248, 249, 250, 251, 252, 305, 351,
    255],
   [160, 260, 274, 290, 298, 296, 310, 167, 315, 272, 352, 358, 381, 173, 362, 330, 176, 261, 275,
    291, 299, 297, 311, 183, 316, 273, 353, 359, 382, 8213, 363, 331, 256, 193, 194, 195, 196, 197,
    198, 302, 268, 201, 280, 203, 278, 205, 206, 207, 208, 325, 332, 211, 212, 213, 214, 360, 216,
    370, 218, 219, 220, 221, 222, 223, 257, 225, 226, 227, 228, 229, 230, 303, 269, 233, 281, 235,
    279, 237, 238, 239, 240, 326, 333, 243, 244, 245, 246, 361, 248, 371, 250, 251, 252, 253, 254,
    312],
   [160, 3585, 3586, 3587, 3588, 3589, 3590, 3591, 3592, 3593, 3594, 3595, 3596, 3597, 3598, 3599,
    3600, 3601, 3602, 3603, 3604, 3605, 3606, 3607, 3608, 3609, 3610, 3611, 3612, 3613, 3614, 3615,
    3616, 3617, 3618, 3619, 3620, 3621, 3622, 3623, 3624, 3625, 3626, 3627, 3628, 3629, 3630, 3631,
    3632, 3633, 3634, 3635, 3636, 3637, 3638, 3639, 3640, 3641, 3642, 0, 0, 0, 0, 3647, 3648, 3649,
    3650, 3651, 3652, 3653, 3654, 3655, 3656, 3657, 3658, 3659, 3660, 3661, 3662, 3663, 3664, 3665,
    3666, 3667, 3668, 3669, 3670, 3671, 3672, 3673, 3674, 3675, 0, 0, 0, 0],
   [0, 0, 0, 0, 0, 0, 0, 0, 0, 0, 0, 0, 0, 0, 0, 0, 0, 0, 0, 0, 0, 0, 0, 0, 0, 0, 0, 0, 0, 0, 0, 0,
    0, 0, 0, 0, 0, 0, 0, 0, 0, 0, 0, 0, 0, 0, 0, 0, 0, 0, 0, 0, 0, 0, 0, 0, 0, 0, 0, 0, 0, 0, 0, 0,
    0, 0, 0, 0, 0, 0, 0, 0, 0, 0, 0, 0, 0, 0, 0, 0, 0, 0, 0, 0, 0, 0, 0, 0, 0, 0, 0, 0, 0, 0, 0, 0],
   [160, 8221, 162, 163, 164, 8222, 166, 167, 216, 169, 342, 171, 172, 173, 174, 198, 176, 177,
    178, 179, 8220, 181, 182, 183, 248, 185, 343, 187, 188, 189, 190, 230, 260, 302, 256, 262, 196,
    197, 280, 274, 268, 201, 377, 278, 290, 310, 298, 315, 352, 323, 325, 211, 332, 213, 214, 215,
    370, 321, 346, 362, 220, 379, 381, 223, 261, 303, 257, 263, 228, 229, 281, 275, 269, 233, 378,
    279, 291, 311, 299, 316, 353, 324, 326, 243, 333, 245, 246, 247, 371, 322, 347, 363, 252, 380,
    382, 8217],
   [160, 7682, 7683, 163, 266, 267, 7690, 167, 7808, 169, 7810, 7691, 7922, 173, 174, 376, 7710,
    7711, 288, 289, 7744, 7745, 182, 7766, 7809, 7767, 7811, 7776, 7923, 7812, 7813, 7777, 192,
    193, 194, 195, 196, 197, 198, 199, 200, 201, 202, 203, 204, 205, 206, 207, 372, 209, 210, 211,
    212, 213, 214, 7786, 216, 217, 218, 219, 220, 221, 374, 223, 224, 225, 226, 227, 228, 229, 230,
    231, 232, 233, 234, 235, 236, 237, 238, 239, 373, 241, 242, 243, 244, 245, 246, 7787, 248, 249,
    250, 251, 252, 253, 375, 255],
   [160, 161, 162, 163, 8364, 165, 352, 167, 353, 169, 170, 171, 172, 173, 174, 175, 176, 177, 178,
    179, 381, 181, 182, 183, 382, 185, 186, 187, 338, 339, 376, 191, 192, 193, 194, 195, 196, 197,
    198, 199, 200, 201, 202, 203, 204, 205, 206, 207, 208, 209, 210, 211, 212, 213, 214, 215, 216,
    217, 218, 219, 220, 221, 222, 223, 224, 225, 226, 227, 228, 229, 230, 231, 232, 233, 234, 235,
    236, 237, 238, 239, 240, 241, 242, 243, 244, 245, 246, 247, 248, 249, 250, 251, 252, 253, 254,
    255],
   [160, 260, 261, 321, 8364, 8222, 352, 167, 353, 169, 536, 171, 377, 173, 378, 379, 176, 177,
    268, 322, 381, 8221, 182, 183, 382, 269, 537, 187, 338, 339, 376, 380, 192, 193, 194, 258, 196,
    262, 198, 199, 200, 201, 202, 203, 204, 205, 206, 207, 272, 323, 210, 211, 212, 336, 214, 346,
    368, 217, 218, 219, 220, 280, 538, 223, 224, 225, 226, 259, 228, 263, 230, 231, 232, 233, 234,
    235, 236, 237, 238, 239, 273, 324, 242, 243, 244, 337, 246, 347, 369, 249, 250, 251, 252, 281,
    539, 255]]

/-- `codepage_data[codepage - 1][c]`. -/
def codepageAt (codepage c : ℤ) : ℤ :=
  if c < 160 then c
  else ((codepageData.getD (codepage - 1).toNat []).getD (c - 160).toNat 0 : ℕ)

/-- `IfcUtil::convert_codepage`. -/
def convertCodepage (codepage c : ℤ) : Except String ℤ :=
  if codepage < 1 ∨ codepage > 16 ∨ codepage = 12 then .error "Invalid codepage"
  else if c < 0 ∨ c > 255 then .error "Invalid character ordinal"
  else if codepageAt codepage c = 0 then .error "Character not defined"
  else .ok (codepageAt codepage c)

/-! ### The loop -/

/-- What one character does. -/
inductive Scan (σ : Type) where
  | next (st : σ)
  /-- `break`. -/
  | stop
  /-- `IfcInvalidTokenException`, which names the position and the character. -/
  | invalidToken
  | exception (what : String)
  deriving DecidableEq, Repr

/-- How a loop ends, with what is ahead of the cursor. -/
inductive Scanned (σ : Type) where
  | done (st : σ) (left : Str)
  | invalidToken (left : Str)
  | exception (what : String) (left : Str)
  /-- The cursor has left the buffer. -/
  | outside
  deriving DecidableEq, Repr

section
variable {σ τ : Type}

/-- `while ((current_char = peek()) != 0) { …; increment(); }`, for at most `n` characters. -/
def scan (step : σ → Char → Scan σ) : ℕ → σ → Str → Scanned σ
  | 0, _, _ => .outside
  | _ + 1, _, [] => .outside
  | n + 1, st, c :: s =>
    if c = '\x00' then .done st (c :: s)
    else match step st c with
      | .next st => scan step n st (inc (c :: s))
      | .stop => .done st (c :: s)
      | .invalidToken => .invalidToken (c :: s)
      | .exception e => .exception e (c :: s)

/-- The same loop on a text without line breaks. -/
def scanText (step : σ → Char → Scan σ) : σ → Str → Scanned σ
  | _, [] => .outside
  | st, c :: s =>
    if c = '\x00' then .done st (c :: s)
    else match step st c with
      | .next st => scanText step st s
      | .stop => .done st (c :: s)
      | .invalidToken => .invalidToken (c :: s)
      | .exception e => .exception e (c :: s)

end

/-! ### The decoder -/

/-- The local variables of `IfcCharacterDecoder::skip`. -/
structure Skip where
  parseState : Flags
  hexCount : ℕ
  deriving DecidableEq, Repr

/-- What the loop of `skip` does with `current_char`. -/
def Skip.step (d : Skip) (c : Char) : Scan Skip :=
  if expectsCharacter d.parseState then .next { d with parseState := 0 }
  else if c = '\'' ∧ d.parseState = 0 then .next { d with parseState := apostrophe }
  else if c = '\\' ∧ d.parseState = 0 then .next { d with parseState := firstSolidus }
  else if c = '\\' ∧ expectsSolidus d.parseState then
    if endsDirective d.parseState then .next { parseState := 0, hexCount := 0 }
    else if has d.parseState encounteredHex then
      .next { d with parseState := d.parseState + thirdSolidus - encounteredHex }
    else .next { d with parseState := d.parseState + secondSolidus }
  else if c = 'X' ∧ expectsEndextendedX d.parseState then
    .next { d with parseState := d.parseState + endextendedX }
  else if c = '0' ∧ expectsEndextended0 d.parseState then
    .next { d with parseState := d.parseState + endextended0 }
  else if c = 'X' ∧ expectsArbitrary d.parseState then
    .next { d with parseState := d.parseState + arbitrary }
  else if c = '2' ∧ expectsArbitrary2 d.parseState then
    .next { d with parseState := d.parseState + extended2 }
  else if c = '4' ∧ expectsArbitrary2 d.parseState then
    .next { d with parseState := d.parseState + (extended2 + extended4) }
  else if c = 'P' ∧ expectsAlphabet d.parseState then
    .next { d with parseState := d.parseState + alphabet }
  else if (c = 'N' ∨ c = 'F') ∧ expectsNOrF d.parseState then
    .next { d with parseState := d.parseState + ignoredDirective }
  else if isValidAlphabetDefinition c ∧ expectsAlphabetDefinition d.parseState then
    .next { d with parseState := d.parseState + alphabetDefinition }
  else if c = 'S' ∧ expectsPage d.parseState then
    .next { d with parseState := d.parseState + page }
  else if isHexadecimal c ∧ expectsHex d.parseState then
    let hexCount := d.hexCount + 1
    let parseState := d.parseState + hexN hexCount
    if isComplete hexCount parseState then
      if hexCount = 2 then .next { parseState := 0, hexCount := 0 }
      else .next { parseState := clearHex parseState ||| encounteredHex, hexCount := 0 }
    else .next { parseState := parseState, hexCount := hexCount }
  else if d.parseState ≠ 0 ∧ ¬ ((c = '\\' ∧ d.parseState = firstSolidus) ∨
      (c = '\'' ∧ d.parseState = apostrophe)) then
    if d.parseState = apostrophe ∧ c ≠ '\'' then .stop else .invalidToken
  else .next { parseState := 0, hexCount := 0 }

/-- `IfcCharacterDecoder::skip`, from the character behind the opening quote on. -/
def skip (left : Str) : Scanned Skip := scan Skip.step left.length ⟨0, 0⟩ left

/-- The local variables of `pure_impure_helper::get`, and `builder_`, whose `wchar_t` is signed. -/
structure Get where
  parseState : Flags
  hexCount : ℕ
  hex : BitVec 32
  codepage : ℤ
  builder : List ℤ
  deriving DecidableEq, Repr

/-- What the loop of `get` does with `current_char`. -/
def Get.step (d : Get) (c : Char) : Scan Get :=
  if expectsCharacter d.parseState then
    match convertCodepage d.codepage (signed c + 0x80) with
    | .ok w => .next { d with builder := d.builder ++ [w], parseState := 0 }
    | .error e => .exception e
  else if c = '\'' ∧ d.parseState = 0 then .next { d with parseState := apostrophe }
  else if c = '\\' ∧ d.parseState = 0 then .next { d with parseState := firstSolidus }
  else if c = '\\' ∧ expectsSolidus d.parseState then
    if endsDirective d.parseState then .next { d with parseState := 0, hex := 0, hexCount := 0 }
    else if has d.parseState encounteredHex then
      .next { d with parseState := d.parseState + thirdSolidus - encounteredHex }
    else .next { d with parseState := d.parseState + secondSolidus }
  else if c = 'X' ∧ expectsEndextendedX d.parseState then
    .next { d with parseState := d.parseState + endextendedX }
  else if c = '0' ∧ expectsEndextended0 d.parseState then
    .next { d with parseState := d.parseState + endextended0 }
  else if c = 'X' ∧ expectsArbitrary d.parseState then
    .next { d with parseState := d.parseState + arbitrary }
  else if c = '2' ∧ expectsArbitrary2 d.parseState then
    .next { d with parseState := d.parseState + extended2 }
  else if c = '4' ∧ expectsArbitrary2 d.parseState then
    .next { d with parseState := d.parseState + (extended2 + extended4) }
  else if c = 'P' ∧ expectsAlphabet d.parseState then
    .next { d with parseState := d.parseState + alphabet }
  else if (c = 'N' ∨ c = 'F') ∧ expectsNOrF d.parseState then
    .next { d with parseState := d.parseState + ignoredDirective }
  else if isValidAlphabetDefinition c ∧ expectsAlphabetDefinition d.parseState then
    .next { d with codepage := c.toNat - 0x40, parseState := d.parseState + alphabetDefinition }
  else if c = 'S' ∧ expectsPage d.parseState then
    .next { d with parseState := d.parseState + page }
  else if isHexadecimal c ∧ expectsHex d.parseState then
    let hexCount := d.hexCount + 1
    let parseState := d.parseState + hexN hexCount
    let hex := (d.hex <<< 4) + BitVec.ofNat 32 (hexToInt c)
    if isComplete hexCount parseState then
      if hexCount = 2 then
        .next { d with parseState := 0, hexCount := 0, hex := 0,
                       builder := d.builder ++ [hex.toInt] }
      else
        .next { d with parseState := clearHex parseState ||| encounteredHex, hexCount := 0,
                       hex := 0, builder := d.builder ++ [hex.toInt] }
    else .next { d with parseState := parseState, hexCount := hexCount, hex := hex }
  else if d.parseState ≠ 0 ∧ ¬ ((c = '\\' ∧ d.parseState = firstSolidus) ∨
      (c = '\'' ∧ d.parseState = apostrophe)) then
    if d.parseState = apostrophe ∧ c ≠ '\'' then .stop else .invalidToken
  else .next { d with parseState := 0, hexCount := 0, hex := 0,
                      builder := d.builder ++ [signed c] }

/-- `builder_`, without the quotes `get` adds, once the loop of `get` has run. -/
def getLoop (left : Str) : Scanned Get := scan Get.step left.length ⟨0, 0, 0, 1, []⟩ left

/-! ### Conversion of what is built -/

/-- `IfcCharacterDecoder::ConversionMode`, with the character the second mode has. -/
inductive ConversionMode where
  | substitute (character : Char)
  | utf8
  | escape
  deriving DecidableEq, Repr

/-- The UTF-8 bytes of a code, a surrogate being written as any other. -/
def writeUtf8 (code : ℕ) : List UInt8 :=
  if code ≤ 0x7f then [UInt8.ofNat code]
  else if code ≤ 0x7ff then
    [UInt8.ofNat (code / 0x40 + 0xc0), UInt8.ofNat (code % 0x40 + 0x80)]
  else if code ≤ 0xffff then
    [UInt8.ofNat (code / 0x1000 + 0xe0), UInt8.ofNat (code / 0x40 % 0x40 + 0x80),
      UInt8.ofNat (code % 0x40 + 0x80)]
  else
    [UInt8.ofNat (code / 0x40000 + 0xf0), UInt8.ofNat (code / 0x1000 % 0x40 + 0x80),
      UInt8.ofNat (code / 0x40 % 0x40 + 0x80), UInt8.ofNat (code % 0x40 + 0x80)]

/-- The codes UTF-8 has bytes for. -/
def Encodable (w : ℤ) : Prop := 0 ≤ w ∧ w ≤ 0x10ffff

instance (w : ℤ) : Decidable (Encodable w) := inferInstanceAs (Decidable (_ ∧ _))

/-- `IfcUtil::convert_utf8`: `std::range_error` at a code beyond those of Unicode. -/
def convertUtf8 : List ℤ → Except String (List UInt8)
  | [] => .ok []
  | w :: s =>
    if Encodable w then (convertUtf8 s).map (writeUtf8 w.toNat ++ ·)
    else .error "wstring_convert::to_bytes"

/-- `std::hex`. -/
def hexText (digit : ℕ → Char) (n : ℕ) : Str :=
  if n = 0 then [digit 0] else (Nat.digits 16 n).reverse.map digit

/-- A digit of `std::hex`. -/
def lowerDigit (n : ℕ) : Char := if n < 10 then Char.ofNat (n + 0x30) else Char.ofNat (n + 0x57)

/-- A digit of `std::hex` and `std::uppercase`. -/
def upperDigit (n : ℕ) : Char := if n < 10 then Char.ofNat (n + 0x30) else Char.ofNat (n + 0x37)

/-- The characters of a `std::string`. -/
def bytes (s : Str) : List UInt8 := s.map fun c => UInt8.ofNat c.toNat

/-- The loop of the escaping mode.  `setw(4)` holds for the first insertion alone, which is the
text before the digits. -/
def escapeLoop (first : Bool) : List ℤ → Str
  | [] => []
  | w :: s =>
    if 0x20 ≤ w ∧ w ≤ 0x7e then Char.ofNat w.toNat :: escapeLoop first s
    else (if first then "00\\u".toList else "\\u".toList) ++
      hexText lowerDigit (w % 2 ^ 32).toNat ++ escapeLoop false s

/-- What `get` returns for `builder_`. -/
def convert (mode : ConversionMode) (builder : List ℤ) : Except String (List UInt8) :=
  match mode with
  | .utf8 =>
    if ∀ w ∈ builder, w ≤ 0x7e then .ok (builder.map fun w => UInt8.ofInt w)
    else convertUtf8 builder
  | .substitute character =>
    .ok (bytes (builder.map fun w =>
      if 0x20 ≤ w ∧ w ≤ 0x7e then Char.ofNat w.toNat else character))
  | .escape => .ok (bytes (escapeLoop true builder))

/-- What `get` leaves: the string, or an exception. -/
inductive Got where
  | string (s : List UInt8) (left : Str)
  | invalidToken (left : Str)
  | exception (what : String)
  | outside
  deriving DecidableEq, Repr

/-- `pure_impure_helper::get`, from the character behind the opening quote on. -/
def get (mode : ConversionMode) (left : Str) : Got :=
  match getLoop left with
  | .done d left =>
    match convert mode ((0x27 :: d.builder) ++ [0x27]) with
    | .ok s => .string s left
    | .error e => .exception e
  | .invalidToken left => .invalidToken left
  | .exception e _ => .exception e
  | .outside => .outside

/-! ### Line breaks -/

/-- The text without its line breaks. -/
def text (left : Str) : Str := left.filter (!isNewline ·)

/-- The cursor stands where `Inc` leaves it, not on a line break. -/
def Aligned (left : Str) : Prop := ∀ c ∈ left.head?, isNewline c = false

instance : ∀ left : Str, Decidable (Aligned left)
  | [] => isTrue nofun
  | c :: _ => decidable_of_iff (isNewline c = false) (by simp [Aligned])

/-- A character that is no line break stays in the text. -/
theorem text_cons {c : Char} (hc : isNewline c = false) (s : Str) :
    text (c :: s) = c :: text s := by
  simp [text, hc]

/-- Line breaks passed over are none of the text. -/
theorem text_dropWhile (s : Str) : text (s.dropWhile isNewline) = text s := by
  induction s with
  | nil => rfl
  | cons c s ih =>
    cases hc : isNewline c with
    | true => simpa [List.dropWhile_cons, hc, text] using ih
    | false => simp [hc]

/-- The line breaks that `Inc` passes are no text. -/
theorem text_inc (c : Char) (s : Str) : text (inc (c :: s)) = text s := text_dropWhile s

/-- Past `Inc` the cursor is on no line break. -/
theorem aligned_inc (left : Str) : Aligned (inc left) := by
  intro c hc
  have h := List.head?_dropWhile_not isNewline left.tail
  rw [show (left.tail.dropWhile isNewline).head? = some c from hc] at h
  simpa using h

/-- An aligned stream does not begin with a line break. -/
theorem Aligned.head {c : Char} {s : Str} (h : Aligned (c :: s)) : isNewline c = false :=
  h c rfl

theorem length_inc_le (c : Char) (s : Str) : (inc (c :: s)).length ≤ s.length :=
  (List.dropWhile_sublist isNewline).length_le

section
variable {σ : Type}

/-- The same end, with the text that is ahead. -/
def Scanned.text : Scanned σ → Scanned σ
  | .done st left => .done st (Ifcparse.text left)
  | .invalidToken left => .invalidToken (Ifcparse.text left)
  | .exception e left => .exception e (Ifcparse.text left)
  | .outside => .outside

/-- Wherever the line breaks stand, the loop reads the text without them. -/
theorem scan_text (step : σ → Char → Scan σ) (n : ℕ) (st : σ) (left : Str)
    (h : Aligned left) (hn : left.length ≤ n) :
    (scan step n st left).text = scanText step st (text left) := by
  induction n generalizing st left with
  | zero =>
    obtain rfl : left = [] := List.length_eq_zero_iff.mp (by omega)
    rfl
  | succ n ih =>
    cases left with
    | nil => rfl
    | cons c s =>
      have hc := h.head
      simp only [scan, text_cons hc, scanText]
      split
      · simp only [Scanned.text, text_cons hc]
      · cases step st c with
        | next st =>
          have hle := length_inc_le c s
          simp only [List.length_cons] at hn
          simp only [ih st (inc (c :: s)) (aligned_inc _) (by omega), text_inc]
        | stop => simp only [Scanned.text, text_cons hc]
        | invalidToken => simp only [Scanned.text, text_cons hc]
        | exception e => simp only [Scanned.text, text_cons hc]

end

/-! ### The places a loop comes to -/

section
variable {σ : Type} {step : σ → Char → Scan σ}

/-- The loop comes from a place of a text to another, with its variables there. -/
inductive Comes (step : σ → Char → Scan σ) : σ → Str → σ → Str → Prop where
  | here (st : σ) (left : Str) : Comes step st left st left
  | next {st st₁ st₂ : σ} {c : Char} {s left : Str} (hc : c ≠ '\x00')
      (h : step st c = .next st₁) (hr : Comes step st₁ (inc (c :: s)) st₂ left) :
      Comes step st (c :: s) st₂ left

/-- From a place it comes to, the loop goes on as from its start. -/
theorem Comes.scan_eq {st st' : σ} {left left' : Str} (h : Comes step st left st' left') :
    ∀ n, left.length ≤ n → ∃ m, left'.length ≤ m ∧ scan step n st left = scan step m st' left' := by
  induction h with
  | here st left => exact fun n hn => ⟨n, hn, rfl⟩
  | @next st st₁ st₂ c s left hc h _ ih =>
    intro n hn
    obtain ⟨n, rfl⟩ : ∃ m, n = m + 1 := ⟨n - 1, by rw [List.length_cons] at hn; omega⟩
    have hle := length_inc_le c s
    rw [List.length_cons] at hn
    obtain ⟨m, hm, he⟩ := ih n (by omega)
    refine ⟨m, hm, ?_⟩
    rw [scan, if_neg hc, h]
    exact he

/-- An exception at a place the loop comes to is how it ends. -/
theorem Comes.scan_exception {st st' : σ} {left rest : Str} {c : Char} {e : String}
    (h : Comes step st left st' (c :: rest)) (hc : c ≠ '\x00')
    (he : step st' c = .exception e) :
    scan step left.length st left = .exception e (c :: rest) := by
  obtain ⟨m, hm, hs⟩ := h.scan_eq left.length le_rfl
  obtain ⟨m, rfl⟩ : ∃ k, m = k + 1 := ⟨m - 1, by rw [List.length_cons] at hm; omega⟩
  rw [hs, scan, if_neg hc, he]

end

/-! ### The two loops -/

/-- What `skip` keeps of the variables of `get`. -/
def Get.toSkip (d : Get) : Skip := ⟨d.parseState, d.hexCount⟩

/-- The variables of `get` before the loop. -/
def Get.start : Get := ⟨0, 0, 0, 1, []⟩

/-- The states the loop of `get` comes through: a code page there is a table for, and fewer
digits than make a character. -/
structure Get.Ok (d : Get) : Prop where
  page : 1 ≤ d.codepage ∧ d.codepage ≤ 9
  hexCount : d.hexCount < 8

theorem Get.start_ok : Get.start.Ok := ⟨by decide, by decide⟩

/-- The character `c` is to be read from the code page of `d`, which has none for it. -/
structure Undefined (d : Get) (c : Char) : Prop where
  nonzero : c ≠ '\x00'
  expected : expectsCharacter d.parseState = true
  undefined : codepageAt d.codepage (signed c + 0x80) = 0

/-- A `char` with the high bit set is a byte. -/
theorem signed_add_range (c : Char) : 0 ≤ signed c + 0x80 ∧ signed c + 0x80 ≤ 255 := by
  have h₁ : -(256 / 2 : ℤ) ≤ signed c := Int.le_bmod (by norm_num)
  have h₂ : signed c < ((256 : ℤ) + 1) / 2 := Int.bmod_lt (by norm_num)
  omega

/-- Of a code page that can be named, a character is converted but for those it leaves out. -/
theorem convertCodepage_eq {p : ℤ} (hp : 1 ≤ p ∧ p ≤ 9) (c : Char) :
    convertCodepage p (signed c + 0x80) =
      if codepageAt p (signed c + 0x80) = 0 then .error "Character not defined"
      else .ok (codepageAt p (signed c + 0x80)) := by
  have hr := signed_add_range c
  rw [convertCodepage, if_neg (by omega), if_neg (by omega)]

/-- A step of `skip` and a step of `get`, which has the variables `d` before it. -/
inductive Agree (d : Get) (c : Char) : Scan Skip → Scan Get → Prop where
  | next {d' : Get} (ok : d'.Ok) : Agree d c (.next d'.toSkip) (.next d')
  | stop : Agree d c .stop .stop
  | invalidToken : Agree d c .invalidToken .invalidToken
  | undefined (h : expectsCharacter d.parseState = true)
      (hu : codepageAt d.codepage (signed c + 0x80) = 0) :
      Agree d c (.next ⟨0, d.hexCount⟩) (.exception "Character not defined")

section
variable {d : Get} {c : Char}

/-- Two steps that go on in the same state. -/
theorem Agree.next' {s : Skip} {d' : Get} (ok : d'.Ok) (h : s = d'.toSkip) :
    Agree d c (.next s) (.next d') := h ▸ .next ok

theorem Agree.ite {p : Prop} [Decidable p] {a b : Scan Skip} {a' b' : Scan Get}
    (h : p → Agree d c a a') (h' : ¬ p → Agree d c b b') :
    Agree d c (if p then a else b) (if p then a' else b') := by
  split
  · exact h ‹p›
  · exact h' ‹¬ p›

/-- A character read from a code page. -/
theorem agree_character (hd : d.Ok) (he : expectsCharacter d.parseState = true) :
    Agree d c (.next ⟨0, d.hexCount⟩)
      (match convertCodepage d.codepage (signed c + 0x80) with
        | .ok w => .next { d with builder := d.builder ++ [w], parseState := 0 }
        | .error e => .exception e) := by
  rw [convertCodepage_eq hd.page]
  by_cases hw : codepageAt d.codepage (signed c + 0x80) = 0
  · rw [if_pos hw]
    exact .undefined he hw
  · rw [if_neg hw]
    exact .next' ⟨hd.1, hd.2⟩ rfl

end

/-- Eight digits are enough for any character. -/
theorem isComplete_eight (s : Flags) : isComplete 8 s = true := by
  simp [isComplete]

/-- One character does the same to both, but for one its code page leaves out. -/
theorem agree_step {d : Get} (hd : d.Ok) (c : Char) :
    Agree d c (Skip.step d.toSkip c) (Get.step d c) := by
  obtain ⟨hp, hn⟩ := hd
  rw [Skip.step, Get.step]
  refine .ite (fun h => agree_character ⟨hp, hn⟩ h) fun _ => ?_
  refine .ite (fun _ => .next' ⟨hp, hn⟩ rfl) fun _ => .ite (fun _ => .next' ⟨hp, hn⟩ rfl) fun _ => ?_
  refine .ite (fun _ => ?_) fun _ => ?_
  · refine .ite (fun _ => .next' ⟨hp, Nat.zero_lt_succ 7⟩ rfl) fun _ => ?_
    exact .ite (fun _ => .next' ⟨hp, hn⟩ rfl) fun _ => .next' ⟨hp, hn⟩ rfl
  refine .ite (fun _ => .next' ⟨hp, hn⟩ rfl) fun _ => .ite (fun _ => .next' ⟨hp, hn⟩ rfl) fun _ => ?_
  refine .ite (fun _ => .next' ⟨hp, hn⟩ rfl) fun _ => .ite (fun _ => .next' ⟨hp, hn⟩ rfl) fun _ => ?_
  refine .ite (fun _ => .next' ⟨hp, hn⟩ rfl) fun _ => .ite (fun _ => .next' ⟨hp, hn⟩ rfl) fun _ => ?_
  refine .ite (fun _ => .next' ⟨hp, hn⟩ rfl) fun _ => .ite (fun h => .next' ⟨?_, hn⟩ rfl) fun _ => ?_
  · -- the code page named is one of `A` to `I`
    have := h.1
    simp only [isValidAlphabetDefinition, Bool.and_eq_true, decide_eq_true_eq] at this
    simp only
    omega
  refine .ite (fun _ => .next' ⟨hp, hn⟩ rfl) fun _ => .ite (fun _ => ?_) fun _ => ?_
  · refine .ite (fun _ => ?_) fun hc => .next' ⟨hp, ?_⟩ rfl
    · exact .ite (fun _ => .next' ⟨hp, Nat.zero_lt_succ 7⟩ rfl) fun _ => .next' ⟨hp, Nat.zero_lt_succ 7⟩ rfl
    · -- eight digits always make a character
      have : d.hexCount + 1 ≠ 8 := by
        intro h
        rw [show d.toSkip.hexCount + 1 = 8 from h] at hc
        exact hc (isComplete_eight _)
      simp only
      omega
  refine .ite (fun _ => ?_) fun _ => .next' ⟨hp, Nat.zero_lt_succ 7⟩ rfl
  exact .ite (fun _ => .stop) fun _ => .invalidToken

/-- How `get` ends where `skip` ends so: `get` has come from `d` to the place of that end. -/
inductive Agrees (d : Get) (left : Str) : Scanned Skip → Scanned Get → Prop where
  | done {d' : Get} {left' : Str} (h : Comes Get.step d left d' left') :
      Agrees d left (.done d'.toSkip left') (.done d' left')
  | invalidToken (left' : Str) : Agrees d left (.invalidToken left') (.invalidToken left')
  | undefined {d' : Get} {c : Char} {rest : Str} (h : Comes Get.step d left d' (c :: rest))
      (hs : Comes Skip.step d.toSkip left ⟨0, d'.hexCount⟩ (inc (c :: rest)))
      (hu : Undefined d' c) (s : Scanned Skip) :
      Agrees d left s (.exception "Character not defined" (c :: rest))
  | outside : Agrees d left .outside .outside

/-- A character passed over by both, before how they end. -/
theorem Agrees.cons {d d' : Get} {c : Char} {s : Str} {a : Scanned Skip} {b : Scanned Get}
    (hc : c ≠ '\x00') (hk : Skip.step d.toSkip c = .next d'.toSkip)
    (hg : Get.step d c = .next d') (h : Agrees d' (inc (c :: s)) a b) :
    Agrees d (c :: s) a b := by
  cases h with
  | done h => exact .done (.next hc hg h)
  | invalidToken left' => exact .invalidToken left'
  | undefined h hs hu a => exact .undefined (.next hc hg h) (.next hc hk hs) hu a
  | outside => exact .outside

/-- The two loops, by induction on the characters ahead. -/
theorem agrees_scan (n : ℕ) {d : Get} (hd : d.Ok) (left : Str) :
    Agrees d left (scan Skip.step n d.toSkip left) (scan Get.step n d left) := by
  induction n generalizing d left with
  | zero => exact .outside
  | succ n ih =>
    cases left with
    | nil => exact .outside
    | cons c s =>
      rw [scan, scan]
      split
      · exact .done (.here d _)
      · rename_i hc
        have h := agree_step hd c
        generalize ha : Skip.step d.toSkip c = a, hb : Get.step d c = b at h
        cases h with
        | next ok => exact (ih ok _).cons hc ha hb
        | stop => exact .done (.here d _)
        | invalidToken => exact .invalidToken _
        | undefined he hu =>
          exact .undefined (.here d _) (.next hc ha (.here _ _)) ⟨hc, he, hu⟩ _

/-- The two loops from their start. -/
theorem agrees_skip (left : Str) : Agrees Get.start left (skip left) (getLoop left) :=
  agrees_scan left.length Get.start_ok left

/-- The loop of `get` throws at a character its code page leaves out. -/
theorem Undefined.step {d : Get} {c : Char} (h : Undefined d c) (hd : d.Ok) :
    Get.step d c = .exception "Character not defined" := by
  rw [Get.step, if_pos h.expected, convertCodepage_eq hd.page, if_pos h.undefined]

/-- What holds at the start holds wherever `get` comes. -/
theorem Comes.ok {d d' : Get} {left left' : Str} (h : Comes Get.step d left d' left')
    (hd : d.Ok) : d'.Ok := by
  induction h with
  | here => exact hd
  | @next st st₁ st₂ c s left hc hg _ ih =>
    have ha := agree_step hd c
    generalize Skip.step st.toSkip c = a at ha
    rw [hg] at ha
    cases ha with
    | next ok => exact ih ok

/-! ### Conversion -/

/-- What UTF-8 fails at is one of the codes. -/
theorem convertUtf8_error {builder : List ℤ} {e : String} (h : convertUtf8 builder = .error e) :
    e = "wstring_convert::to_bytes" ∧ ∃ w ∈ builder, ¬ Encodable w := by
  induction builder with
  | nil => cases h
  | cons w s ih =>
    rw [convertUtf8] at h
    split at h
    · cases hs : convertUtf8 s with
      | ok t => rw [hs] at h; cases h
      | error e' =>
        rw [hs] at h
        obtain rfl : e' = e := Except.error.inj h
        obtain ⟨he, w', hw', hn⟩ := ih hs
        exact ⟨he, w', List.mem_cons_of_mem _ hw', hn⟩
    · exact ⟨(Except.error.inj h).symm, w, List.mem_cons_self, ‹_›⟩

/-- Only the mode `UTF8` fails, and only at such a code. -/
theorem convert_error {mode : ConversionMode} {builder : List ℤ} {e : String}
    (h : convert mode builder = .error e) :
    mode = .utf8 ∧ e = "wstring_convert::to_bytes" ∧ ∃ w ∈ builder, ¬ Encodable w := by
  cases mode with
  | utf8 =>
    rw [convert] at h
    split at h
    · cases h
    · exact ⟨rfl, convertUtf8_error h⟩
  | substitute character => cases h
  | escape => cases h

/-- `builder_` with its two quotes. -/
def quoted (builder : List ℤ) : List ℤ := (0x27 :: builder) ++ [0x27]

/-- Quoting adds nothing that cannot be encoded. -/
theorem exists_quoted {builder : List ℤ} (h : ∃ w ∈ quoted builder, ¬ Encodable w) :
    ∃ w ∈ builder, ¬ Encodable w := by
  obtain ⟨w, hw, hn⟩ := h
  have hq : Encodable 0x27 := by decide
  simp only [quoted, List.cons_append, List.mem_cons, List.mem_append, List.not_mem_nil,
    or_false] at hw
  rcases hw with rfl | hw | rfl
  · exact absurd hq hn
  · exact ⟨w, hw, hn⟩
  · exact absurd hq hn

/-! ### The two copies -/

/-- `get` comes to the character `c`, which its code page leaves out, and `skip` comes past it. -/
def UndefinedAt (left : Str) (d : Get) (c : Char) (rest : Str) : Prop :=
  Comes Get.step Get.start left d (c :: rest) ∧ Undefined d c ∧
    Comes Skip.step Get.start.toSkip left ⟨0, d.hexCount⟩ (inc (c :: rest))

/-- How `get` ends where `skip` ends so. -/
inductive SameEnd (mode : ConversionMode) (left : Str) : Scanned Skip → Got → Prop where
  | string {d : Get} {left' : Str} {s : List UInt8} (h : Comes Get.step Get.start left d left')
      (hs : convert mode (quoted d.builder) = .ok s) :
      SameEnd mode left (.done d.toSkip left') (.string s left')
  /-- What is built holds a code that UTF-8 has no bytes for. -/
  | unencodable {d : Get} {left' : Str} (h : Comes Get.step Get.start left d left')
      (hm : mode = .utf8) (hw : ∃ w ∈ d.builder, ¬ Encodable w) :
      SameEnd mode left (.done d.toSkip left') (.exception "wstring_convert::to_bytes")
  | invalidToken (left' : Str) : SameEnd mode left (.invalidToken left') (.invalidToken left')
  | outside : SameEnd mode left .outside .outside

/-- The exception is thrown where the character is. -/
theorem UndefinedAt.getLoop_eq {left rest : Str} {d : Get} {c : Char}
    (h : UndefinedAt left d c rest) :
    getLoop left = .exception "Character not defined" (c :: rest) :=
  h.1.scan_exception h.2.1.nonzero (h.2.1.step (h.1.ok Get.start_ok))

/-- The two exceptions differ. -/
theorem SameEnd.ne {mode : ConversionMode} {left : Str} {a : Scanned Skip} {b : Got}
    (h : SameEnd mode left a b) : b ≠ .exception "Character not defined" := by
  cases h with
  | string => nofun
  | unencodable => simp
  | invalidToken => nofun
  | outside => nofun

/-- Where `skip` is done `get` has a string, unless UTF-8 has no bytes for it. -/
theorem sameEnd_done (mode : ConversionMode) {left left' : Str} {d : Get}
    (h : Comes Get.step Get.start left d left') (hg : getLoop left = .done d left') :
    SameEnd mode left (.done d.toSkip left') (get mode left) := by
  simp only [get, hg]
  cases hw : convert mode (quoted d.builder) with
  | ok s =>
    rw [show convert mode ((0x27 :: d.builder) ++ [0x27]) = .ok s from hw]
    exact .string h hw
  | error e =>
    obtain ⟨hm, rfl, hn⟩ := convert_error hw
    rw [show convert mode ((0x27 :: d.builder) ++ [0x27]) = _ from hw]
    exact .unencodable h hm (exists_quoted hn)

/-- `get` ends where `skip` ends, and as it ends.  What is left for it alone is a code that UTF-8
has no bytes for, when `skip` is done there, and a character that its code page leaves out, which
`skip` passes over: it throws there if and only if it comes to one. -/
theorem get_agrees_skip (mode : ConversionMode) (left : Str) :
    (get mode left = .exception "Character not defined" ↔
      ∃ d c rest, UndefinedAt left d c rest) ∧
    ((¬ ∃ d c rest, UndefinedAt left d c rest) →
      SameEnd mode left (skip left) (get mode left)) := by
  by_cases hu : ∃ d c rest, UndefinedAt left d c rest
  · obtain ⟨d, c, rest, h⟩ := hu
    have he : get mode left = .exception "Character not defined" := by
      simp only [get, h.getLoop_eq]
    exact ⟨⟨fun _ => ⟨d, c, rest, h⟩, fun _ => he⟩, fun hn => absurd ⟨d, c, rest, h⟩ hn⟩
  · have hs : SameEnd mode left (skip left) (get mode left) := by
      have h := agrees_skip left
      generalize ha : skip left = a, hb : getLoop left = b at h
      cases h with
      | done h => exact sameEnd_done mode h hb
      | invalidToken left' => simpa only [get, hb] using .invalidToken left'
      | undefined h hk hd s => exact absurd ⟨_, _, _, h, hd, hk⟩ hu
      | outside => simpa only [get, hb] using .outside
    exact ⟨⟨fun he => absurd he hs.ne, fun h => absurd h hu⟩, fun _ => hs⟩

end VulcanDB.Ifcparse

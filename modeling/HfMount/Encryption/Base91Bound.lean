import HfMount.Encryption.Path
import Mathlib.Order.Bounds.Basic

/-!
# How long an encoding can be

`encodedLenUpperBound` counts two symbols for what is left after the whole
blocks of 13 bits.  Up to six bits take one symbol only, and then no byte
string of that length comes up to the bound.
-/

namespace HfMount.Encryption

open BlockCode LittleEndian SlashPath Utf8

namespace Base91

end Base91

open Base91

/-! ## Names that are rejected -/

end HfMount.Encryption

import LoxTokens.Text.Basic

/-!
Painting text with terminal escape sequences.

A style is a pair of codes, one that opens it and one that closes it. Painted text stands between
the two, without a change of its own; with colours off a text is left as it is.
-/

namespace LoxTokens

/-- The codes that open and close a style. -/
structure Style where
  opening : Text
  closing : Text
  deriving DecidableEq, Repr

namespace Style

/-- The escape sequence that sets a code. -/
def sequence (code : Text) : Text := '\x1b' :: '[' :: code ++ ['m']

/-- A text in a style, where colours are on. -/
def paint (style : Style) (colored : Bool) (t : Text) : Text :=
  if colored then sequence style.opening ++ t ++ sequence style.closing else t

/-- A style whose end resets everything. -/
def resetting (opening : Text) : Style := ⟨opening, "0"⟩

/-- A colour whose end restores the colour of the terminal. -/
def hue (opening : Text) : Style := ⟨opening, "39"⟩

def bold : Style := resetting "1"
def boldRed : Style := resetting "31;1"
def boldMagenta : Style := resetting "35;1"
def boldWhite : Style := resetting "37;1"
def boldBrightGreen : Style := resetting "92;1"
def boldBrightCyan : Style := resetting "96;1"
def blue : Style := resetting "34"
def green : Style := resetting "32"
def yellow : Style := resetting "33"
def cyan : Style := resetting "36"
def dimmed : Style := resetting "2"
def cyanHue : Style := hue "36"
def magentaHue : Style := hue "35"
def yellowHue : Style := hue "33"
def brightYellowHue : Style := hue "93"
def brightCyanHue : Style := hue "96"

@[simp] theorem paint_plain (style : Style) (t : Text) : style.paint false t = t := rfl

end Style

end LoxTokens

/-!
# Highlighting

Escape sequences that select how a terminal renders text, and the few styles that outcomes are shown
in.  A palette that is off leaves all text as it is.
-/

namespace Entailment

/-- The parameters of a "select graphic rendition" sequence. -/
structure Escape where
  parameters : List Nat
deriving DecidableEq, Repr

namespace Escape

def plain : Escape := ⟨[]⟩

def reset : Escape := ⟨[0]⟩

def bold : Escape := ⟨[1]⟩

def foreground (e : Escape) (colour : Nat) : Escape := ⟨e.parameters ++ [30 + colour]⟩

def background (e : Escape) (colour : Nat) : Escape := ⟨e.parameters ++ [40 + colour]⟩

/-- The sequence itself; without parameters there is none. -/
def render (e : Escape) : String :=
  if e.parameters.isEmpty then ""
  else "\x1b[" ++ ";".intercalate (e.parameters.map fun n => toString n) ++ "m"

/-- Text in this rendition, with the default restored after it. -/
def wrap (e : Escape) (text : String) : String :=
  if e.parameters.isEmpty then text else e.render ++ text ++ reset.render

end Escape

namespace Colour

def red : Nat := 1

def green : Nat := 2

def yellow : Nat := 3

end Colour

structure Palette where
  enabled : Bool
deriving DecidableEq, Repr

namespace Palette

def apply (p : Palette) (e : Escape) (text : String) : String :=
  if p.enabled then e.wrap text else text

def success (p : Palette) : String → String := p.apply (Escape.bold.foreground Colour.green)

def failure (p : Palette) : String → String := p.apply (Escape.bold.foreground Colour.red)

def warning (p : Palette) : String → String := p.apply (Escape.plain.foreground Colour.yellow)

def emphasis (p : Palette) : String → String := p.apply Escape.bold

end Palette

end Entailment

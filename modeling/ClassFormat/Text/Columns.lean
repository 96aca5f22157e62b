/-! Text in columns. A column never cuts its text: longer text pushes what follows to
the right. -/
namespace ClassFormat.Text.Columns

def blanks (fill : Char) (n : Nat) : String := String.ofList (List.replicate n fill)

/-- The text starts at the left edge. -/
def left (width : Nat) (text : String) : String := text ++ blanks ' ' (width - text.length)

/-- The text ends at the right edge. -/
def right (width : Nat) (text : String) : String := blanks ' ' (width - text.length) ++ text

/-- The text stands in the middle; an odd fill character goes to its right. -/
def centre (fill : Char) (width : Nat) (text : String) : String :=
  let room := width - text.length
  blanks fill (room / 2) ++ text ++ blanks fill (room - room / 2)

/-- At most the first `width` characters. -/
def cut (width : Nat) (text : String) : String := String.ofList (text.toList.take width)

end ClassFormat.Text.Columns

import PropBench.Session.Event

/-!
# Report — Line

A result as a line of text, with colours for a terminal or without.
-/

namespace PropBench

/-- A colour of a terminal, by its number in the table of 256. -/
structure Paint where
  colour : Nat
  bold : Bool := false

namespace Paint

/-- For verdicts that an operator set is adequate. -/
def green : Paint := { colour := 10 }

/-- For errors, and for verdicts that an operator set is not adequate. -/
def red : Paint := { colour := 9 }

/-- For values. -/
def cyanBold : Paint := { colour := 14, bold := true }

/-- A text between the codes that switch its colour on and off.  Bold text ends with the code that
switches everything off. -/
def wrap (p : Paint) (text : String) : String :=
  let on := "\x1b[38;5;" ++ toString p.colour ++ "m"
  if p.bold then
    on ++ "\x1b[1m" ++ text ++ "\x1b[0m"
  else
    on ++ text ++ "\x1b[39m"

end Paint

/-- A text, painted if colours are wanted. -/
def painted (colours : Bool) (p : Paint) (text : String) : String :=
  if colours then p.wrap text else text

/-- The verdict on an operator set. -/
def AdequacyReport.line (colours : Bool) (r : AdequacyReport) : String :=
  if r.adequate then
    r.opset ++ " is " ++ painted colours .green "adequate"
  else
    r.opset ++ " is " ++ painted colours .red "not adequate" ++ " (every operator is " ++
      ", ".intercalate (r.retained.map PostProperty.short) ++ ")"

/-- The answer of a statement. -/
def Outcome.line (colours : Bool) : Outcome → String
  | .declared space names => "declared " ++ space.text ++ " " ++ ", ".intercalate names
  | .evaluated f v b =>
    f ++ " with " ++ v ++ " is " ++ painted colours .cyanBold (if b then "true" else "false")
  | .adequacy r => r.line colours

/-- The line of a result. -/
def Result.line (colours : Bool) (r : Result) : String :=
  s!"[{r.index}] {r.kind.text}: " ++
    (match r.outcome with
      | .ok o => o.line colours
      | .error f => painted colours .red "error:" ++ " " ++ f.message)

/-- The line of an event, for those that have one. -/
def Event.line? (colours : Bool) : Event → Option String
  | .reported r => some (r.line colours)
  | .halted i => some s!"Halted after statement {i}"
  | .declared _ _ _ | .finished => none

end PropBench

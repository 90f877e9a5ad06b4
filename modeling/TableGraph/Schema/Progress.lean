import TableGraph.Decimal.Fixed

/-!
# Progress of a build

A build reports its steps as weights out of a total. What is done never exceeds the total, and is
shown as a percentage.
-/

namespace TableGraph

/-- How far a build has come. -/
structure Progress where
  /-- The weight of everything, at least one. -/
  total : Float
  /-- The weight of what is done. -/
  current : Float

namespace Progress

/-- The lesser of two numbers. -/
def least (a b : Float) : Float := if b < a then b else a

/-- Nothing done yet. -/
def start (total : Float) : Progress := ⟨if total < 1 then 1 else total, 0⟩

/-- One more step. -/
def tick (p : Progress) (step : Float) : Progress :=
  { p with current := least (p.current + step) p.total }

/-- What is done as a percentage. -/
def percent (p : Progress) : Float := least (p.current / p.total * 100) 100

/-- A weight or percentage as text. -/
def shown (f : Float) : String := (Decimal.Double.ofFloat f).fixed 6

/-- The percentages before the first step and after each step. -/
def percents (p : Progress) : List Float → List Float
  | [] => [p.percent]
  | s :: steps => p.percent :: percents (p.tick s) steps

end Progress

end TableGraph

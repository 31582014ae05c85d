import Gullet.Reader

/-!
# Regions

A command can read a token list of its own in the same way as the input. The list becomes a region on
top of the input, whose end is the end of the input for the command. Afterwards the region is closed,
however the reading went, and what was not read is given back.
-/

namespace Gullet.Run

variable {α : Type}

/-- Closes every source that stands above the lowest `height` ones. Gives the tokens that were pending
in them. -/
def closeAbove (height : Nat) (m : Machine) : List Token × Machine :=
  let (closed, kept) := m.input.sources.splitAt (m.input.sources.length - height)
  (closed.flatMap fun s => s.pending.tokens, { m with input := ⟨kept⟩ })

/-- Runs an action that reads the given list. Gives the result, which may be that the run stops, and
what is left of the list. -/
def regionKeeping (l : TokenList) (action : Run α) : Run (Except Halt α × TokenList) := fun m =>
  let bound := m.config.maxExpansionDepth
  if bound ≤ m.expansionDepth then
    let fault := Fault.limitExceeded l.tokens.head? .expansionDepth bound
    (.ok (.error (.failed (.ofFault m.atlas fault)), l), m)
  else
    let (result, after) := action
      { m with input := m.input.enter (.ofList l), expansionDepth := m.expansionDepth + 1 }
    let (rest, closed) := closeAbove m.input.sources.length after
    (.ok (result, { l with tokens := rest }),
      { closed with expansionDepth := closed.expansionDepth - 1 })

/-- Runs an action that reads the given list. What is left of the list is dropped. -/
def region (l : TokenList) (action : Run α) : Run α := do
  let (result, _) ← regionKeeping l action
  liftExcept result
where
  /-- Stops the run if the result says so. -/
  liftExcept : Except Halt α → Run α
    | .ok a => return a
    | .error h => throw h

/-- Runs an action during which shielded macros are not expanded. -/
def shielding (action : Run α) : Run α := fun m =>
  let (result, after) := action { m with fullExpansions := m.fullExpansions + 1 }
  (result, { after with fullExpansions := after.fullExpansions - 1 })

end Gullet.Run

namespace Gullet

/-- Expands tokens until no expandable command is left, except for shielded macros. -/
def Stream.expandFully (x : Expander) (ts : List Token) : Run (List Token) :=
  Run.shielding (Run.region { tokens := ts } (expanded x).drain)

end Gullet

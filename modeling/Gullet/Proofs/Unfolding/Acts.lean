import Gullet.Expansion
import Gullet.Proofs.Run.Keeping

/-!
# The acts of expansion

Expansion, and the readers that it uses, are made of fewer acts than execution: tokens are read and put
in front of the input, files are opened and left, branches of conditionals come and go, and the only
assignment is that `\csname` makes an undefined reference do nothing. A preorder that allows these acts
is kept by every reader and by expansion as a whole.
-/

namespace Gullet

namespace Machine

/-- The machine that reads a list as a region. -/
def inRegion (m : Machine) (l : TokenList) : Machine :=
  { m with input := m.input.enter (.ofList l), expansionDepth := m.expansionDepth + 1 }

/-- What becomes of a machine when the region that another one has entered is left. -/
def leaveRegion (m m' : Machine) : Machine :=
  { (Run.closeAbove m.input.sources.length m').2 with expansionDepth := m'.expansionDepth - 1 }

/-- A preorder that allows reading tokens as they stand in the input. -/
class Reading (R : Machine → Machine → Prop) : Prop extends IsPreorder Machine R where
  read (m : Machine) : R m { m with
    input := ⟨(Input.read m.codeOf m.config.retainComments true m.input.sources).sources⟩ }
  skip (m : Machine) (c : Comment) : R m (m.emit (.skipping c))

/-- A preorder that allows the acts of expansion. -/
class Unfolding (R : Machine → Machine → Prop) : Prop extends Reading R where
  /-- Putting tokens in front of the input. -/
  push (m : Machine) (ts : List Token) : R m { m with input := m.input.pushAll ts }
  /-- Telling that a file is read. -/
  announce (m : Machine) (path : Path) : R m (m.emit (.input path))
  /-- Giving out something that is no event. -/
  put (m : Machine) (output : Output) (h : output.events = m.output.events) : R m { m with output }
  /-- Making an undefined reference do nothing. -/
  name (m : Machine) {ref : CommandRef} (h : (m.lookup ref).isDefined = false) :
    R m (m.change (.bound .inner ref (.execution .relax)))
  /-- Opening a branch of a conditional. -/
  openBranch (m : Machine) (b : Branch) : R m { m with branches := b :: m.branches }
  /-- Closing the innermost branch of a conditional. -/
  closeBranch (m : Machine) : R m { m with branches := m.branches.tail }
  /-- Counting an expansion. -/
  count (m : Machine) : R m { m with expansions := m.expansions + 1 }
  /-- Opening a text on top of the input. -/
  openSource (m : Machine) (origin : Origin) (content : String) :
    R m (Run.openSource origin content m).2
  /-- Leaving the current file. -/
  endInput (m : Machine) : R m m.leaveFile
  /-- Reading a list as a region. -/
  region {m m' : Machine} (l : TokenList) (h : R (m.inRegion l) m') : R m (m.leaveRegion m')
  /-- Going one level deeper. -/
  deeper {m m' : Machine} (h : R { m with expansionDepth := m.expansionDepth + 1 } m') :
    R m { m' with expansionDepth := m'.expansionDepth - 1 }
  /-- Leaving shielded macros alone. -/
  shielding {m m' : Machine} (h : R { m with fullExpansions := m.fullExpansions + 1 } m') :
    R m { m' with fullExpansions := m'.fullExpansions - 1 }

end Machine

namespace Run

variable {α : Type} {R : Machine → Machine → Prop}

theorem keeps_refuse [IsPreorder Machine R] (e : LexError) : (Stream.refuse e).Keeps R :=
  fun m => refl m

@[grind .] theorem keeps_raw [Machine.Reading R] : Stream.raw.Keeps R := by
  intro m
  unfold Stream.raw
  rw [get_bind_eval]
  split
  · exact refl m
  · rw [set_bind_eval]
    refine trans_of R (Machine.Reading.read m) (Keeps.bind (Keeps.forM fun c => ?_) (fun _ => ?_) _)
    · exact fun m' => Machine.Reading.skip m' c
    · split
      · exact keeps_pure _
      · exact keeps_refuse _

variable [Machine.Unfolding R]

@[grind .] theorem keeps_pushTokens (ts : List Token) : (pushTokens ts).Keeps R :=
  fun m => Machine.Unfolding.push m ts

@[grind .] theorem keeps_pushBack (t : Token) : (pushBack t).Keeps R := by
  intro m
  show R m { m with input := m.input.push t }
  rw [Input.push_eq_pushAll]
  exact Machine.Unfolding.push m [t]

@[grind .] theorem keeps_announce (path : Path) : (emit (.input path)).Keeps R :=
  fun m => Machine.Unfolding.announce m path

@[grind .] theorem keeps_writeLog (s : String) : (writeLog s).Keeps R :=
  fun m => Machine.Unfolding.put m _ rfl

@[grind .] theorem keeps_writeTerminal (s : String) : (writeTerminal s).Keeps R :=
  fun m => Machine.Unfolding.put m _ rfl

@[grind .] theorem keeps_openSource (origin : Origin) (content : String) :
    (openSource origin content).Keeps R := fun m => Machine.Unfolding.openSource m origin content

omit [Machine.Unfolding R] in
@[grind .] theorem keeps_lookup [IsPreorder Machine R] (ref : CommandRef) : (lookup ref).Keeps R :=
  keeps_get.bind fun _ => keeps_pure _

/-! ### Brackets -/

section

variable {a : Run α} {l : TokenList} {m : Machine}

/-- At the limit a region is not entered at all. -/
theorem regionKeeping_of_le (hd : m.config.maxExpansionDepth ≤ m.expansionDepth) :
    regionKeeping l a m =
      (.ok (.error (.failed (.ofFault m.atlas
        (.limitExceeded l.tokens.head? .expansionDepth m.config.maxExpansionDepth))), l), m) := by
  unfold regionKeeping
  exact if_pos hd

/-- A region is left when it has been read, even if the run stops there. -/
theorem regionKeeping_of_lt (hd : m.expansionDepth < m.config.maxExpansionDepth) :
    regionKeeping l a m =
      (.ok ((a (m.inRegion l)).1,
        { l with tokens := (closeAbove m.input.sources.length (a (m.inRegion l)).2).1 }),
        m.leaveRegion (a (m.inRegion l)).2) := by
  unfold regionKeeping
  exact if_neg (Nat.not_le_of_lt hd)

theorem region_of_le (hd : m.config.maxExpansionDepth ≤ m.expansionDepth) :
    region l a m = (.error (.failed (.ofFault m.atlas
      (.limitExceeded l.tokens.head? .expansionDepth m.config.maxExpansionDepth))), m) := by
  unfold Run.region
  rw [bind_of_ok (regionKeeping_of_le hd)]
  rfl

theorem region_of_lt (hd : m.expansionDepth < m.config.maxExpansionDepth) :
    region l a m = ((a (m.inRegion l)).1, m.leaveRegion (a (m.inRegion l)).2) := by
  unfold Run.region
  rw [bind_of_ok (regionKeeping_of_lt hd)]
  rcases a (m.inRegion l) with ⟨halt | x, m₁⟩
  · rfl
  · rfl

end

@[grind .] theorem Keeps.regionKeeping {a : Run α} (l : TokenList) (ha : a.Keeps R) :
    (regionKeeping l a).Keeps R := by
  intro m
  unfold Run.regionKeeping
  dsimp only
  split
  · exact refl m
  · exact Machine.Unfolding.region _ (ha _)

@[grind .] theorem Keeps.region {a : Run α} (l : TokenList) (ha : a.Keeps R) :
    (region l a).Keeps R := by
  refine (ha.regionKeeping l).bind fun r => ?_
  obtain ⟨result, rest⟩ := r
  cases result with
  | ok x => exact keeps_pure x
  | error h => exact keeps_throw h

@[grind .] theorem Keeps.shielding {a : Run α} (ha : a.Keeps R) : (shielding a).Keeps R :=
  fun _ => Machine.Unfolding.shielding (ha _)

@[grind .] theorem Keeps.deeper {a : Run α} (t : Token) (ha : a.Keeps R) :
    (Expansion.deeper t a).Keeps R := by
  intro m
  unfold Expansion.deeper
  dsimp only
  split
  · exact refl m
  · exact Machine.Unfolding.deeper (ha _)

end Run

end Gullet

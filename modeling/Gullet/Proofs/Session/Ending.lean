import Mathlib.Order.WellFounded
import Gullet.Proofs.Run.Rereading
import Gullet.Proofs.Scopes.Vocabulary
import Gullet.Proofs.Session.Grouping
import Gullet.Proofs.Taking.Processing

/-!
# How the main loop ends

Only expansions are counted against a limit, but the commands that are not expanded can put tokens in
front of the input as well. All the same the main loop ends on every machine that can be reached, unless
it runs `\end` under another name again and again. That it does not end then is shown by an example: with
`\let\@endenvironment\end`, what `\end` puts in front of the input runs `\end` again.
-/

namespace Gullet

/-! ### Machines that can be reached are ready -/

theorem Machine.Reachable.accounted {m : Machine} (h : m.Reachable) :
    Input.Accounted m.input.sources ∧ m.expansionDepth = 0 := by
  have hempty : Input.Accounted ({} : Input).sources := Input.accounted_bottom .empty
  induction h with
  | standard => exact ⟨hempty, rfl⟩
  | configure h handlers cancellation config policy files workingDirectory styling ih => exact ih
  | evolve h he ih => exact ⟨he.continues.accounted ih.1, he.continues.expansionDepth.trans ih.2⟩
  | @parse m h handlers origin content ih =>
    obtain ⟨_, closed, -, -, -, hinput, hafter⟩ := Session.parse_evolves handlers origin content m
    rw [hafter]
    refine ⟨?_, rfl⟩
    show Input.Accounted closed.input.sources
    rw [hinput]
    exact hempty

theorem Machine.Reachable.ready {m : Machine} (h : m.Reachable) :
    m.Ready (m.config.maxExpansionDepth + 1) := by
  obtain ⟨haccounted, hdepth⟩ := h.accounted
  exact ⟨haccounted, by omega, by omega⟩

namespace Session

/-! ### Rounds of the main loop -/

/-- A round of the main loop goes from one machine to another: it reads a token and processes it. -/
def Round (m m' : Machine) : Prop :=
  ∃ t read, Stream.main m = (.ok (some t), read) ∧ Execution.process t read = (.ok (), m')

/-- The round that begins with the machine runs `\end` under another name. -/
def RenamedRound (m : Machine) : Prop :=
  ∃ t read, Stream.main m = (.ok (some t), read) ∧ read.RenamesEnd t

/-- The main loop ends: it comes to the end of the input, or an error stops it. -/
def Ends (m : Machine) : Prop :=
  ∃ steps, (∃ m', mainLoop steps m = (.ok (), m')) ∨
    ∃ halt m', halt ≠ .outOfSteps ∧ mainLoop steps m = (.error halt, m')

/-- The main loop goes on round after round, and again and again runs `\end` under another name. -/
def RenamesForever (m : Machine) : Prop :=
  ∃ run : Nat → Machine, run 0 = m ∧ (∀ k, Round (run k) (run (k + 1))) ∧
    ∀ n, ∃ k, n ≤ k ∧ RenamedRound (run k)

variable {levels : Nat} {m m' : Machine}

theorem mainLoop_of_round (h : Round m m') (steps : Nat) :
    mainLoop (steps + 1) m = mainLoop steps m' := by
  obtain ⟨t, read, hmain, hprocess⟩ := h
  rw [mainLoop, hmain]
  dsimp only
  rw [hprocess]

theorem ends_of_round (h : Round m m') : Ends m' → Ends m := by
  rintro ⟨steps, hends⟩
  refine ⟨steps + 1, ?_⟩
  rw [mainLoop_of_round h]
  exact hends

/-- A loop that goes on round after round does not end. -/
theorem not_ends_of_run {run : Nat → Machine} (h : ∀ k, Round (run k) (run (k + 1))) :
    ¬ Ends (run 0) := by
  -- whatever number of steps the loop is given, it uses them up
  have hsteps (steps : Nat) : ∃ m', mainLoop steps (run 0) = (.error .outOfSteps, m') := by
    induction steps generalizing run with
    | zero =>
      obtain ⟨t, read, hmain, -⟩ := h 0
      exact ⟨read, by rw [mainLoop, hmain]⟩
    | succ steps ih =>
      rw [mainLoop_of_round (h 0)]
      exact @ih (fun k => run (k + 1)) fun k => h (k + 1)
  rintro ⟨steps, ⟨m', hends⟩ | ⟨halt, m', hhalt, hends⟩⟩
  · obtain ⟨m'', hloop⟩ := hsteps steps
    rw [hloop] at hends
    cases hends
  · obtain ⟨m'', hloop⟩ := hsteps steps
    rw [hloop] at hends
    cases hends
    exact hhalt rfl

/-! ### A main loop that does not end -/

/-- If `\@endenvironment` means `\end`, what `\end` puts in front of the input leads back to itself. -/
theorem round_handedOn (hm : m.Readable) (hd : m.expansionDepth < m.config.maxExpansionDepth)
    (hrenamed : m.lookup (.controlSequence "@endenvironment") = .execution .endEnvironment)
    {name : String} (hname : name ≠ "") (htrim : Text.trim name = name)
    (hender : m.lookup (Definition.ending name) = .undefined) (key : SourceKey) :
    Round (m.push (handedOn name key)) (m.push (handedOn name key)) := by
  let t : Token := .controlSequence "@endenvironment" key
  let label : List Token :=
    .char .beginGroup '\x7b' key :: (Token.ofText name key ++ [.char .endGroup '\x7d' key])
  have hlookup : (m.push label).lookup (.controlSequence "@endenvironment") =
      .execution .endEnvironment := hrenamed
  -- `\@endenvironment` is not expanded, so that it is processed
  have hmain : Stream.main (m.push (t :: label)) = (.ok (some t), m.push label) := by
    refine Run.loop_of_answer ((Run.bind_of_ok (Run.raw_push hm)).trans ?_)
    show (if _ && Stream.expands (m.push label) ((m.push label).lookup _) then _ else _ : Run _)
      (m.push label) = _
    have hexpands : Stream.expands (m.push label) (.execution .endEnvironment) = false := rfl
    rw [hlookup, hexpands, Bool.and_false]
    rfl
  have hlabel : Definition.environmentName t (m.push label) = (.ok name, m.push []) := by
    unfold Definition.environmentName
    rw [Run.bind_of_ok (Run.label_push hm hd name key rfl rfl []), htrim]
    have hempty : name.isEmpty = false := by simpa using hname
    rw [hempty]
    rfl
  -- there is nothing else to end the environment, so that only the label is handed on
  have hends : Execution.endEnvironment t (m.push label) = (.ok (), m.push (t :: label)) := by
    unfold Execution.endEnvironment
    rw [Run.bind_of_ok hlabel, Run.bind_of_ok (Run.lookup_eval _ _)]
    have hundefined : (m.push []).lookup (Definition.ending name) = .undefined := hender
    rw [hundefined]
    refine (Run.pushTokens_push _ [] m).trans ?_
    rw [List.append_nil]
    rfl
  refine ⟨t, m.push label, hmain, ?_⟩
  exact (Run.process_execution_eval rfl hlookup).trans (Run.during_of_ok _ t hends)

/-- The standard machine after `\let\@endenvironment\end`. -/
def renamed : Machine :=
  Machine.standard.change
    (.bound .inner (.controlSequence "@endenvironment") (.execution .endEnvironment))

theorem lookup_renamed (ref : CommandRef) :
    renamed.lookup ref =
      if compare (.controlSequence "@endenvironment") ref = .eq then .execution .endEnvironment
      else Machine.standard.lookup ref := by
  have hbindings : renamed.scopes.bindings = Machine.standard.scopes.bindings.insert .inner
      (.controlSequence "@endenvironment") (.execution .endEnvironment) := rfl
  unfold Machine.lookup Bindings.lookup
  rw [hbindings, ScopedMap.get?_insert]
  split
  · rfl
  · rfl

/-- **The main loop does not end on every machine that can be reached.** After
`\let\@endenvironment\end\end{a}` it goes on for ever, without any expansion. -/
theorem renamed_not_ends :
    (renamed.push (handedOn "a" none)).Reachable ∧
      (renamed.push (handedOn "a" none)).cancellation = {} ∧
      ¬ Ends (renamed.push (handedOn "a" none)) := by
  have hreachable : renamed.Reachable := .evolve .standard (.change _ trivial)
  have hreadable : renamed.Readable := ⟨rfl, List.cons_ne_nil _ _⟩
  have hrenamed : renamed.lookup (.controlSequence "@endenvironment") = .execution .endEnvironment := by
    rw [lookup_renamed, if_pos (Std.ReflCmp.compare_self)]
  have hender : renamed.lookup (Definition.ending "a") = .undefined := by
    have hcompare : compare (.controlSequence "@endenvironment") (Definition.ending "a") ≠ .eq := fun h =>
      absurd (Std.LawfulEqCmp.eq_of_compare h) (by decide)
    rw [lookup_renamed, if_neg hcompare]
    exact Machine.lookup_standard_of_not_contains (by decide)
  have hround := round_handedOn hreadable (by decide) hrenamed (by decide) (by decide) hender none
  exact ⟨.evolve hreachable (.push renamed _), rfl, not_ends_of_run fun _ => hround⟩

/-! ### A main loop that ends -/

/-- **A round goes on with a ready machine, on which less is to be done** unless the round runs `\end`
under another name. -/
theorem Round.shrinks (hready : m.Ready levels) (h : Round m m') :
    m'.Ready levels ∧ (¬ RenamedRound m → m.Shrinks m') := by
  obtain ⟨t, read, hmain, hprocess⟩ := h
  have htook := ((Run.takes_main m hready).of_ok hmain).1
  by_cases hrenames : read.RenamesEnd t
  · have hread := hready.of_continues htook.continues
    have hc := (Run.ensures_process_of_renamesEnd hread hrenames).of_ok hprocess
    exact ⟨hread.of_continues hc, fun hnot => absurd ⟨t, read, hmain, hrenames⟩ hnot⟩
  · have hc := (Run.ensures_process hready htook hrenames).of_ok hprocess
    exact ⟨hready.of_continues hc.1, fun _ => hc.2⟩

/-- A loop that does not end goes on with another round. -/
theorem exists_round (hready : m.Ready levels) (h : ¬ Ends m) : ∃ m', Round m m' ∧ ¬ Ends m' := by
  cases hmain : Stream.main m with
  | mk result read =>
    have htakes := Run.takes_main m hready
    rcases result with halt | ⟨_ | t⟩
    · refine absurd ⟨1, .inr ⟨halt, read, htakes.of_error hmain, ?_⟩⟩ h
      rw [mainLoop, hmain]
    · refine absurd ⟨1, .inl ⟨read, ?_⟩⟩ h
      rw [mainLoop, hmain]
    · have htook := (htakes.of_ok hmain).1
      cases hprocess : Execution.process t read with
      | mk result m' =>
        rcases result with halt | _
        · have hhalt : halt ≠ .outOfSteps := by
            by_cases hrenames : read.RenamesEnd t
            · have hread := hready.of_continues htook.continues
              exact (Run.ensures_process_of_renamesEnd hread hrenames).of_error hprocess
            · exact (Run.ensures_process hready htook hrenames).of_error hprocess
          refine absurd ⟨1, .inr ⟨halt, m', hhalt, ?_⟩⟩ h
          rw [mainLoop, hmain]
          dsimp only
          rw [hprocess]
        · have hround : Round m m' := ⟨t, read, hmain, hprocess⟩
          exact ⟨m', hround, fun hends => h (ends_of_round hround hends)⟩

/-- A loop that does not end is an endless run. -/
theorem exists_run (hready : m.Ready levels) (h : ¬ Ends m) :
    ∃ run : Nat → Machine, run 0 = m ∧ ∀ k, Round (run k) (run (k + 1)) := by
  -- the rounds are chosen one after the other, among the machines on which the loop does not end
  let Endless := { m : Machine // m.Ready levels ∧ ¬ Ends m }
  have hnext (m : Endless) : ∃ m' : Endless, Round m.1 m'.1 := by
    obtain ⟨m', hround, hends⟩ := exists_round m.2.1 m.2.2
    exact ⟨⟨m', (hround.shrinks m.2.1).1, hends⟩, hround⟩
  choose next hnext using hnext
  let run (k : Nat) : Endless := Nat.rec ⟨m, hready, h⟩ (fun _ m => next m) k
  exact ⟨fun k => (run k).1, rfl, fun k => hnext (run k)⟩

theorem ready_run (hready : m.Ready levels) {run : Nat → Machine} (hrun : run 0 = m)
    (h : ∀ k, Round (run k) (run (k + 1))) (k : Nat) : (run k).Ready levels := by
  induction k with
  | zero =>
    rw [hrun]
    exact hready
  | succ k ih => exact ((h k).shrinks ih).1

/-- **The main loop ends, unless it runs `\end` under another name again and again.** -/
theorem ends_iff_not_renamesForever (h : m.Reachable) : Ends m ↔ ¬ RenamesForever m := by
  constructor
  · rintro hends ⟨run, rfl, hrun, -⟩
    exact not_ends_of_run hrun hends
  · intro hnot
    by_contra hends
    obtain ⟨run, hstart, hrun⟩ := exists_run h.ready hends
    refine hnot ⟨run, hstart, hrun, fun n => ?_⟩
    by_contra hlast
    -- from some round on nothing is renamed, so that less and less is to be done
    have hshrinks (k : Nat) : (run (n + k)).Shrinks (run (n + k + 1)) := by
      refine ((hrun (n + k)).shrinks (ready_run h.ready hstart hrun (n + k))).2 fun hrenamed => ?_
      exact hlast ⟨n + k, Nat.le_add_right n k, hrenamed⟩
    obtain ⟨_, ⟨k, rfl⟩, hleast⟩ :=
      Machine.wellFounded_shrinks.has_min (Set.range fun k => run (n + k)) ⟨_, 0, rfl⟩
    exact hleast _ ⟨k + 1, rfl⟩ (hshrinks k)

theorem ends_of_isOk {steps : Nat} (h : (mainLoop steps m).1.isOk = true) : Ends m := by
  refine ⟨steps, .inl ?_⟩
  rcases hloop : mainLoop steps m with ⟨halt | x, m'⟩
  · rw [hloop] at h
    cases h
  · exact ⟨m', rfl⟩

/-- In this document a conditional is expanded, one environment is closed by `\end`, and the other one by
`\end` under another name. The loop goes through ten rounds. -/
theorem document_not_renamesForever :
    let m := (Run.openSource (.text "main")
      "\\let\\finish\\end \\begin{document}\\begin{center}\\iftrue x\\fi\\end{center}\\finish{document}"
      Machine.standard).2
    m.Reachable ∧ (mainLoop 9 m).1.isOk = false ∧ (mainLoop 10 m).1.isOk = true ∧
      (mainLoop 10 m).2.expansions = 2 ∧ ¬ RenamesForever m := by
  intro m
  have hreachable : m.Reachable := .evolve .standard (.openSource _ _ _)
  have hrun : (mainLoop 9 m).1.isOk = false ∧ (mainLoop 10 m).1.isOk = true ∧
      (mainLoop 10 m).2.expansions = 2 := by decide +kernel
  obtain ⟨hgoing, hends, hexpansions⟩ := hrun
  exact ⟨hreachable, hgoing, hends, hexpansions,
    (ends_iff_not_renamesForever hreachable).1 (ends_of_isOk hends)⟩

end Session

end Gullet

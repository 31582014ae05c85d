import Gullet.Proofs.Conditional.Number

/-!
# Running tests

A test whose tokens come next finds out whether its condition holds, and reads its tokens and no others.
After a number that no space ends it looks at the token that follows.
-/

namespace Gullet

/-- The action reads the tokens and gives the result. If they end with an open number, it looks at the
plain character that comes next. -/
def Run.Reads {α : Type} (b : Bindings) (action : Run α) (operand : List Token) (looks : Bool)
    (r : α) : Prop :=
  ∀ ⦃t : Token⦄ ⦃m m' m'' : Machine⦄, m.Steady b → Stream.raw.Supplies operand m m' →
    (looks = true → Stream.raw m' = (.ok (some t), m'') ∧ t.IsPlain) →
    action m = (.ok r, m'.peeked looks t m'')

theorem Reader.reads_number {x : Expander} {b : Bindings} {n : Numeral} (hn : n.WellFormed)
    (hfits : n.magnitude ≤ 2147483647) : (Reader.number x).Reads b n.tokens n.isOpen n.value :=
  fun _ _ _ _ => Reader.number_numeral hn hfits

namespace Test

/-- What the primitive of a test does to find out whether the condition holds. -/
def run (x : Expander) : Test → Run Bool
  | fixed holds => return holds
  | compare _ _ _ => Conditional.numbersCompare x
  | odd _ => return (← Reader.number x) % 2 ≠ 0
  | same _ _ => Conditional.meaningsAgree
  | defined _ => Conditional.nextIsDefined

variable {x : Expander} {t : Token} {b : Bindings} {m m' m₁ m'' : Machine}

theorem isPlain_relationToken (relation : Ordering × SourceKey) : (relationToken relation).IsPlain := by
  obtain ⟨o, key⟩ := relation
  cases o <;> exact ⟨_, _, rfl, rfl, rfl⟩

theorem relation_eval {relation : Ordering × SourceKey}
    (h : Stream.raw m = (.ok (some (relationToken relation)), m')) :
    (Stream.expanded x).relation m = (.ok relation.1, m') := by
  obtain ⟨category, c, hv, hspace, -⟩ := isPlain_relationToken relation
  have hskip := Run.skipSpaces_of_some (Run.expanded_of_char (x := x) h hv) hspace
  have hread := Run.expanded_of_char (x := x) (Run.raw_of_pushBack h) hv
  unfold Stream.relation
  rw [Run.bind_of_ok hskip, Run.bind_of_ok hread]
  obtain ⟨o, key⟩ := relation
  cases o <;> rfl

/-- The first number and the relation are read. The relation ends the number, so it is looked at before
it is read. -/
theorem numbersCompare_of_first {n : Numeral} {relation : Ordering × SourceKey} (hn : n.WellFormed)
    (hfits : n.magnitude ≤ 2147483647) (hm : m.Steady b) (h : Stream.raw.Supplies n.tokens m m₁)
    (hrelation : Stream.raw m₁ = (.ok (some (relationToken relation)), m')) :
    Conditional.numbersCompare x m = (do
      let k ← Reader.number x
      return decide (Ord.compare n.value k = relation.1)) m' := by
  have hfirst := Reader.number_numeral (x := x) hn hfits hm h
    fun _ => ⟨hrelation, isPlain_relationToken relation⟩
  unfold Conditional.numbersCompare
  rw [Run.bind_of_ok hfirst, Run.bind_of_ok (relation_eval (Run.raw_peeked n.isOpen hrelation))]

theorem meaningsAgree_eval {first second : Token} (hm : m.Steady b)
    (h : Stream.raw.Supplies [first, second] m m') :
    Conditional.meaningsAgree m =
      (.ok ((b.meaningOf first.value).sameMeaning (b.meaningOf second.value)), m') := by
  obtain ⟨m₁, hfirst, hsecond⟩ := h
  replace hsecond := Stream.supplies_singleton.1 hsecond
  unfold Conditional.meaningsAgree
  rw [Run.bind_of_ok (Run.nextOr_of_some hfirst _), Run.bind_of_ok (Run.nextOr_of_some hsecond _),
    Run.get_bind_eval, ((hm.raw hfirst).raw hsecond).bindings]
  rfl

theorem nextIsDefined_eval (hm : m.Steady b) (h : Stream.raw m = (.ok (some t), m')) :
    Conditional.nextIsDefined m = (.ok (b.meaningOf t.value).isDefined, m') := by
  unfold Conditional.nextIsDefined
  rw [Run.bind_of_ok (Run.nextOr_of_some h _), Run.get_bind_eval, (hm.raw h).bindings]
  rfl

/-- **A test finds out whether its condition holds.** It reads its own tokens only. -/
theorem reads_run {test : Test} (htest : test.WellFormed b)
    (hwords : ∀ n ∈ test.numerals, n.magnitude ≤ 2147483647) :
    (test.run x).Reads b test.tokens test.isOpen (test.holds b) := by
  intro t m m' m'' hm h hnext
  cases test with
  | fixed holds =>
    obtain rfl : m = m' := h
    rfl
  | compare n relation k =>
    obtain ⟨hn, hk⟩ := htest
    obtain ⟨m₁, hfirst, m₂, hrelation, hsecond⟩ := Stream.supplies_append.1 h
    have hnumber := Reader.number_numeral (x := x) hk
      (hwords k (List.mem_cons_of_mem n List.mem_cons_self)) ((hm.supplies hfirst).raw hrelation)
      hsecond hnext
    exact (numbersCompare_of_first hn (hwords n List.mem_cons_self) hm hfirst hrelation).trans
      (Run.bind_of_ok hnumber)
  | odd n =>
    have hnumber :=
      Reader.number_numeral (x := x) htest (hwords n List.mem_cons_self) hm h hnext
    exact Run.bind_of_ok hnumber
  | same first second => exact meaningsAgree_eval hm h
  | defined t => exact nextIsDefined_eval hm (Stream.supplies_singleton.1 h)

/-- A test whose last number no space ends is not made where the token after it cannot be read. -/
theorem run_open_error {test : Test} {halt : Halt} (htest : test.WellFormed b)
    (hopen : test.isOpen = true) (hwords : ∀ n ∈ test.numerals, n.magnitude ≤ 2147483647)
    (hm : m.Steady b) (h : Stream.raw.Supplies test.tokens m m')
    (hnext : Stream.expanded x m' = (.error halt, m'')) : test.run x m = (.error halt, m'') := by
  cases test with
  | compare n relation k =>
    obtain ⟨hn, hk⟩ := htest
    obtain ⟨m₁, hfirst, m₂, hrelation, hsecond⟩ := Stream.supplies_append.1 h
    have hnumber := Reader.number_open_error hk hopen
      (hwords k (List.mem_cons_of_mem n List.mem_cons_self)) ((hm.supplies hfirst).raw hrelation)
      hsecond hnext
    exact (numbersCompare_of_first hn (hwords n List.mem_cons_self) hm hfirst hrelation).trans
      (Run.bind_of_error hnumber)
  | odd n =>
    exact Run.bind_of_error
      (Reader.number_open_error htest hopen (hwords n List.mem_cons_self) hm h hnext)
  | _ => cases hopen

end Test

/-! ### The primitive of a test -/

theorem Conditional.quiet_eval {action : Run Unit} {m m' : Machine} (h : action m = (.ok ⟨⟩, m')) :
    Expansion.primitive.quiet action m = (.ok none, m') := by
  unfold Expansion.primitive.quiet
  rw [Run.bind_of_ok h]
  rfl

theorem Test.primitive_eq (x : Expander) (t : Token) (test : Test) :
    Expansion.primitive x t test.primitive =
      Expansion.primitive.quiet (test.run x >>= Conditional.choose t) := by
  cases test with
  | fixed holds => cases holds <;> rfl
  | odd n =>
    show Expansion.primitive.quiet (do Conditional.choose t ((← Reader.number x) % 2 ≠ 0)) = _
    unfold run
    rw [bind_assoc]
    rfl
  | _ => rfl

/-- The primitive of a test goes on as the condition says. -/
theorem Test.primitive_eval {x : Expander} {t : Token} {test : Test} {holds : Bool}
    {m m₁ m' : Machine} (htest : test.run x m = (.ok holds, m₁))
    (hchoose : Conditional.choose t holds m₁ = (.ok ⟨⟩, m')) :
    Expansion.primitive x t test.primitive m = (.ok none, m') := by
  rw [primitive_eq]
  exact Conditional.quiet_eval ((Run.bind_of_ok htest).trans hchoose)

end Gullet

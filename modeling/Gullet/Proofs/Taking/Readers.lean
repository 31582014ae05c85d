import Gullet.Proofs.Taking.Acts
import Gullet.Reader.Dimen

/-!
# What readers take

Every reader takes tokens if the stream that it reads does. Of most readers it does not matter which
tokens these are. It does for those that are repeated, since every round of a loop must take one, and
for those whose result is put in front of the input again: arguments and labels.
-/

namespace Gullet.Run

variable {α : Type} {levels : Nat} {s : Stream} {x : Expander}

/-! ### Streams -/

theorem consumes_stream (hs : s.Takes levels) : s.Consumes levels fun r ts => ts = r.toList :=
  fun m hready => (hs m hready).mono fun r _ h => ⟨r.toList, rfl, h.1⟩

theorem spends_stream (hs : s.Takes levels) : s.Spends levels := (consumes_stream hs).spends

theorem consumes_nextOr (hs : s.Takes levels) (during : Activity) :
    (s.nextOr during).Consumes levels fun t ts => ts = [t] := by
  refine (consumes_stream hs).bind ?_
  rintro r _ rfl
  cases r with
  | none => exact consumes_fail _
  | some t => exact consumes_pure rfl

theorem consumes_nextOr_ne_nil (hs : s.Takes levels) (during : Activity) :
    (s.nextOr during).Consumes levels fun _ ts => ts ≠ [] := by
  refine (consumes_nextOr hs during).mono ?_
  rintro t _ rfl
  exact List.cons_ne_nil t []

theorem spends_nextOr (hs : s.Takes levels) (during : Activity) : (s.nextOr during).Spends levels :=
  (consumes_nextOr hs during).spends

theorem consumes_peek (hs : s.Takes levels) : s.peek.Consumes levels fun _ ts => ts = [] := by
  refine consumes_of_takes fun m₀ => (consumes_stream hs).takes_bind ?_
  rintro r _ rfl
  cases r with
  | none => exact takes_pure rfl
  | some t =>
    refine (takes_pushBack t).bind ?_
    rintro _ _ rfl
    exact takes_pure rfl

theorem consumes_take? (hs : s.Takes levels) (p : TokenValue → Option α) :
    (s.take? p).Consumes levels fun r ts =>
      match r with
      | none => ts = []
      | some a => ∃ t, p t.value = some a ∧ ts = [t] := by
  refine consumes_of_takes fun m₀ => (consumes_stream hs).takes_bind ?_
  rintro r _ rfl
  cases r with
  | none => exact takes_pure rfl
  | some t =>
    dsimp only
    cases hp : p t.value with
    | some a => exact takes_pure ⟨t, hp, rfl⟩
    | none =>
      refine (takes_pushBack t).bind ?_
      rintro _ _ rfl
      exact takes_pure rfl

/-- What is taken when something is found is not empty. -/
theorem consumes_take?_ne_nil (hs : s.Takes levels) (p : TokenValue → Option α) :
    (s.take? p).Consumes levels fun r ts => r.isSome = true → ts ≠ [] := by
  refine (consumes_take? hs p).mono ?_
  rintro (_ | a) ts hr
  · exact fun h => nomatch h
  · obtain ⟨t, -, rfl⟩ := hr
    exact fun _ => List.cons_ne_nil t []

theorem consumes_takeSpace (hs : s.Takes levels) :
    s.takeSpace.Consumes levels fun found ts => found = true → ts ≠ [] := by
  refine (consumes_take?_ne_nil hs _).bind fun r ts hr => consumes_pure ?_
  simpa using hr

theorem spends_takeSpace (hs : s.Takes levels) : s.takeSpace.Spends levels :=
  (consumes_takeSpace hs).spends

theorem spends_skipSpaces (hs : s.Takes levels) : s.skipSpaces.Spends levels := by
  refine .loop (fun _ => (consumes_takeSpace hs).bind fun found ts hts => ?_) _
  cases found with
  | false => exact consumes_pure fun h => nomatch h
  | true => exact consumes_pure fun _ => by simpa using hts rfl

theorem spends_nextNonSpace (hs : s.Takes levels) (during : Activity) :
    (s.nextNonSpace during).Spends levels := by
  refine .loop_of_bind (consumes_nextOr_ne_nil hs during) (fun _ t => ?_) _
  split
  · exact spends_pure _
  · exact spends_pure _

/-- Everything that is left is given, and taken. -/
theorem ensures_drain (hs : s.Takes levels) {m₀ : Machine} (hready : m₀.Ready levels) :
    s.drain.Ensures m₀ fun ts m => m₀.Took ts m ∧ m.AtEnd := by
  -- what has been taken is what has been collected, last one first
  refine Ensures.loop (I := fun sofar m => m₀.Took sofar.reverse m) ?_ (.refl m₀)
  intro sofar m htook
  refine (hs m (hready.of_continues htook.continues)).bind ?_
  rintro r m' ⟨htook', hend⟩
  cases r with
  | none =>
    refine ensures_pure ⟨?_, hend rfl⟩
    simpa using htook.trans htook'
  | some t =>
    refine ensures_pure ⟨htook'.progress (List.cons_ne_nil t []), ?_⟩
    rw [List.reverse_cons]
    exact htook.trans htook'

/-! ### The expanded stream -/

/-- One round of the expanded stream takes the token that it gives, or counts an expansion. -/
theorem ensures_expandedRound (hx : x.Counts levels) {m : Machine} (hready : m.Ready levels) :
    (Stream.expandedRound x ()).Ensures m fun r m' =>
      match r with
      | .inl () => m.Continues m' ∧ m'.expansionsLeft < m.expansionsLeft
      | .inr r => m.Took r.toList m' ∧ (r = none → m'.AtEnd) := by
  refine (takes_raw m hready).bind ?_
  rintro (_ | ⟨_ | ref, key⟩) m' ⟨htook, hend⟩
  · exact ensures_pure ⟨htook, hend⟩
  · exact ensures_pure ⟨htook, fun h => nomatch h⟩
  · refine Ensures.get_bind ?_
    split
    · refine (hx m' (hready.of_continues htook.continues) ref key).bind ?_
      rintro (_ | t') m'' ⟨hc, hlt⟩
      · exact ensures_pure
          ⟨htook.continues.trans hc, Nat.lt_of_lt_of_le hlt htook.continues.expansionsLeft_le⟩
      · exact ensures_pure ⟨htook.then_lt hc hlt _, fun h => nomatch h⟩
    · exact ensures_pure ⟨htook, fun h => nomatch h⟩

/-- **The expanded stream takes the token that it gives.** -/
theorem takes_expanded (hx : x.Counts levels) : (Stream.expanded x).Takes levels := by
  intro m₀ hready
  -- a round that gives no token has counted an expansion, so that any token may have been taken
  refine Ensures.loop
    (I := fun _ m => m = m₀ ∨ m₀.Continues m ∧ m.expansionsLeft < m₀.expansionsLeft) ?_ (.inl rfl)
  rintro _ m hm
  have hc : m₀.Continues m := by
    rcases hm with rfl | ⟨hc, -⟩
    · exact .refl m
    · exact hc
  refine (ensures_expandedRound hx (hready.of_continues hc)).mono ?_
  rintro (_ | r) m' hr
  · have hle := hc.expansionsLeft_le
    exact ⟨.inl hr.2, .inr ⟨hc.trans hr.1, Nat.lt_of_lt_of_le hr.2 hle⟩⟩
  · refine ⟨?_, hr.2⟩
    rcases hm with rfl | ⟨-, hlt⟩
    · exact hr.1
    · exact .of_lt (hc.trans hr.1.continues)
        (Nat.lt_of_le_of_lt hr.1.continues.expansionsLeft_le hlt) _

/-- Full expansion takes nothing from the input, and where nothing can be expanded it changes
nothing. -/
theorem ensures_expandFully (hx : x.Counts levels) (ts : List Token) {m : Machine}
    (hready : m.Ready levels) :
    (Stream.expandFully x ts).Ensures m fun r m' =>
      m.Took [] m' ∧ (m'.expansionsLeft = m.expansionsLeft → r = ts) := by
  refine Ensures.shielding ?_
  have hready' : Machine.Ready levels { m with fullExpansions := m.fullExpansions + 1 } :=
    ⟨hready.accounted, hready.within, hready.enough⟩
  refine Ensures.region fun hd => (ensures_drain (takes_expanded hx) (hready'.inRegion hd _)).mono ?_
  rintro r m' ⟨htook, hend⟩
  have hleave := htook.leaveRegion
  refine ⟨⟨?_, hleave.input⟩, fun hleft => htook.whole_region hend hleft⟩
  obtain ⟨hconfig, hdepth, hfull, hexpansions, haccounted⟩ := hleave.continues
  exact ⟨hconfig, hdepth, congrArg (· - 1) hfull, hexpansions, haccounted⟩

theorem spends_expandFully (hx : x.Counts levels) (ts : List Token) :
    (Stream.expandFully x ts).Spends levels :=
  fun _ hready => (ensures_expandFully hx ts hready).mono fun _ _ h => ⟨[], trivial, h.1⟩

/-! ### Keywords and relations -/

/-- A keyword is taken, or what was read for it is put back. -/
theorem takes_takeKeyword (hs : s.Takes levels) {m₀ : Machine} (us : List Token) (word : List Char)
    (taken : List Token) :
    (s.takeKeyword word taken).Takes levels m₀ (us ++ taken.reverse) fun _ _ => True := by
  induction word generalizing taken with
  | nil => exact takes_pure trivial
  | cons want rest ih =>
    refine (consumes_stream hs).takes_bind ?_
    rintro r _ rfl
    cases r with
    | none =>
      rw [Option.toList_none, List.append_nil]
      exact (takes_forM_pushBack taken).bind fun _ _ _ => takes_pure trivial
    | some t =>
      rw [Option.toList_some, List.append_assoc, ← List.reverse_cons]
      dsimp only
      split
      · exact ih (t :: taken)
      -- the token that does not fit is put back, and then those before it
      · exact (takes_forM_pushBack (t :: taken)).bind fun _ _ _ => takes_pure trivial

theorem spends_keyword (hs : s.Takes levels) (word : String) : (s.keyword word).Spends levels := by
  refine (spends_skipSpaces hs).bind fun _ => ?_
  exact consumes_of_takes fun m₀ => takes_takeKeyword hs [] word.toList []

theorem spends_optionalEquals (hs : s.Takes levels) : s.optionalEquals.Spends levels := by
  refine .loop (fun _ => (consumes_take?_ne_nil hs _).bind fun found ts hts => ?_) _
  split
  · exact consumes_pure fun _ => by simpa using hts rfl
  · exact consumes_pure fun h => nomatch h

theorem spends_relation (hs : s.Takes levels) : s.relation.Spends levels := by
  refine (spends_skipSpaces hs).bind fun _ => (spends_stream hs).bind fun r => ?_
  cases r with
  | none => exact spends_fail _
  | some t =>
    dsimp only
    split
    · exact spends_pure _
    · exact spends_pure _
    · exact spends_pure _
    · exact spends_fail _

/-! ### Numbers -/

theorem spends_signs (hs : s.Takes levels) : (Reader.signs s).Spends levels := by
  refine .loop (fun negative => (consumes_take?_ne_nil hs _).bind fun sign ts hts => ?_) _
  cases sign with
  | none => exact consumes_pure fun h => nomatch h
  | some minus => exact consumes_pure fun _ => by simpa using hts rfl

theorem spends_digits (hs : s.Takes levels) (r : Radix) (soFar : Nat) (started : Bool) :
    (Reader.digits s r soFar started).Spends levels := by
  refine Spends.bind (.loop (fun b => consumes_of_takes fun m₀ => ?_) _) fun b => ?_
  · refine (consumes_stream hs).takes_bind ?_
    rintro t? _ rfl
    cases t? with
    | none => exact takes_pure fun h => nomatch h
    | some t =>
      dsimp only
      split
      · exact (takes_pushBack t).bind fun _ _ _ => takes_pure fun h => nomatch h
      · split
        · exact takes_pure fun _ => List.cons_ne_nil t []
        · exact takes_fail _
  · dsimp only
    split
    · exact spends_pure _
    · exact (consumes_peek hs).spends.bind fun _ => spends_fail _

theorem spends_character : Reader.character.Spends levels := by
  refine (spends_nextOr takes_raw _).bind fun t => ?_
  split
  · exact spends_pure _
  · exact spends_pure _
  · split
    · exact spends_pure _
    · exact spends_fail _

section

variable {number : Run (Token × Int)} {m₀ : Machine} {us : List Token}

theorem takes_bounded (hn : number.Takes levels m₀ us fun _ _ => True) (bound : Nat) :
    (Reader.bounded number bound).Takes levels m₀ us fun _ _ => True := by
  refine hn.bind fun r ts _ => ?_
  dsimp only
  split
  · exact takes_pure trivial
  · exact takes_fail _

theorem takes_resolve (hn : number.Takes levels m₀ us fun _ _ => True) (t : Token)
    (v : VariableCommand) : (Reader.resolve number t v).Takes levels m₀ us fun _ _ => True := by
  cases v with
  | fixed v => exact takes_pure trivial
  | register kind => exact ((takes_bounded hn _).bind fun _ _ _ => takes_pure trivial).during _ t
  | catCode => exact ((takes_bounded hn _).bind fun _ _ _ => takes_pure trivial).during _ t

theorem takes_internalNumber (hn : number.Takes levels m₀ us fun _ _ => True) (t : Token)
    (ref : CommandRef) :
    (Reader.internalNumber number t ref).Takes levels m₀ us fun _ _ => True := by
  refine (stays_lookup ref).takes_bind fun command => ?_
  dsimp only
  split
  · refine (takes_resolve hn t _).bind fun v _ _ => ?_
    cases v with
    | tokenList index => exact takes_fail _
    | _ => exact .get_bind fun _ => takes_pure trivial
  · exact takes_fail _
  · exact takes_fail _

theorem spends_constant (hs : s.Takes levels) {n : Run Int} (hn : n.Spends levels) :
    (Reader.constant s n).Spends levels :=
  hn.bind fun _ => (spends_takeSpace hs).bind fun _ => spends_pure _

/-- Before a number is read inside a number, a token has been taken. -/
theorem takes_numberWith (hx : x.Counts levels)
    (hn : ∀ us, us ≠ [] → number.Takes levels m₀ us fun _ _ => True) :
    (Reader.numberWith x number).Takes levels m₀ [] fun _ _ => True := by
  have hs := takes_expanded hx
  refine (spends_signs hs).takes.bind fun negative us _ => ?_
  refine (consumes_nextOr hs _).takes_bind ?_
  rintro first _ rfl
  have hus : us ++ [first] ≠ [] := List.append_ne_nil_of_right_ne_nil us (List.cons_ne_nil first [])
  -- the sign does not matter for what is taken
  have hresult (ts : List Token) {n : Run Int} (h : n.Takes levels m₀ ts fun _ _ => True) :
      (do
        let n ← n
        return (first, if negative then Word.wrap (-n) else n) :
          Run (Token × Int)).Takes levels m₀ ts fun _ _ => True :=
    h.bind fun _ _ _ => takes_pure trivial
  have hconstant {n : Run Int} (h : n.Spends levels) :=
    hresult (us ++ [first]) (spends_constant hs h).takes
  dsimp only
  split
  · split
    · exact hconstant ((spends_digits hs _ _ _).map _)
    · split
      · exact hconstant ((spends_digits hs _ _ _).map _)
      · split
        · exact hconstant ((spends_digits hs _ _ _).map _)
        · split
          · exact hconstant spends_character
          · exact hresult _ (takes_fail _)
  · refine (takes_internalNumber (hn _ hus) first _).bind fun v _ _ => ?_
    cases v with
    | integer n => exact hresult _ (takes_pure trivial)
    | dimen d => exact hresult _ (takes_pure trivial)
  · exact hresult _ (takes_fail _)

end

/-- **Reading a number takes tokens, and makes progress before it reads a number inside it.** -/
theorem spends_numberAt (hx : x.Counts levels) : (Reader.numberAt x).Spends levels :=
  .fix fun _ _ hn => takes_numberWith hx hn

theorem spends_number (hx : x.Counts levels) : (Reader.number x).Spends levels :=
  (spends_numberAt hx).bind fun _ => spends_pure _

theorem spends_natural (hx : x.Counts levels) (bound : Nat) :
    (Reader.natural x bound).Spends levels :=
  consumes_of_takes fun _ => takes_bounded (spends_numberAt hx).takes bound

theorem spends_catCode (hx : x.Counts levels) : (Reader.catCode x).Spends levels := by
  refine (spends_numberAt hx).bind fun r => ?_
  dsimp only
  split
  · exact spends_pure _
  · exact spends_fail _

theorem spends_variableOf (hx : x.Counts levels) (t : Token) (v : VariableCommand) :
    (Reader.variableOf x t v).Spends levels :=
  consumes_of_takes fun _ => takes_resolve (spends_numberAt hx).takes t v

/-! ### Dimensions -/

theorem spends_decimals (hs : s.Takes levels) : (Reader.decimals s).Spends levels := by
  refine Spends.bind (.loop (fun sofar => consumes_of_takes fun m₀ => ?_) _) fun _ => spends_pure _
  refine (consumes_stream hs).takes_bind ?_
  rintro t? _ rfl
  cases t? with
  | none => exact takes_pure fun h => nomatch h
  | some t =>
    dsimp only
    split
    · exact takes_pure fun h => nomatch h
    · split
      · exact takes_pure fun _ => List.cons_ne_nil t []
      · exact (takes_pushBack t).bind fun _ _ _ => takes_pure fun h => nomatch h

theorem spends_unit_go (hs : s.Takes levels) (units : List (String × LengthUnit)) :
    (Reader.unit.go s units).Spends levels := by
  induction units with
  | nil => exact (consumes_peek hs).spends.bind fun _ => spends_fail _
  | cons u rest ih =>
    refine (spends_keyword hs _).bind fun found => ?_
    cases found with
    | false => exact ih
    | true => exact spends_pure _

theorem spends_unit (hs : s.Takes levels) : (Reader.unit s).Spends levels := spends_unit_go hs _

theorem spends_scaled (hx : x.Counts levels) (whole : Int) (part : Dimen) :
    (Reader.scaled x whole part).Spends levels := by
  have hs := takes_expanded hx
  refine consumes_of_takes fun m₀ => (spends_skipSpaces hs).takes.bind fun _ us _ => ?_
  refine (consumes_stream hs).takes_bind ?_
  rintro next _ rfl
  have hunit : (do
      _ ← (Stream.expanded x).keyword "true"
      let u ← Reader.unit (Stream.expanded x)
      _ ← (Stream.expanded x).takeSpace
      return u.times? whole part : Run (Option Dimen)).Spends levels :=
    (spends_keyword hs _).bind fun _ => (spends_unit hs).bind fun _ =>
      (spends_takeSpace hs).bind fun _ => spends_pure _
  dsimp only
  split
  · refine (takes_internalNumber (spends_numberAt hx).takes _ _).bind fun v _ _ => ?_
    cases v with
    | integer n => exact takes_pure trivial
    | dimen d => exact takes_pure trivial
  · cases next with
    | none => exact Takes.bind (A := fun _ _ => True) (takes_pure trivial) fun _ _ _ => hunit.takes
    | some t => exact (takes_pushBack t).bind fun _ _ _ => hunit.takes

theorem spends_negate (d : Dimen) : (Reader.negate d).Spends levels := by
  unfold Reader.negate
  split
  · exact spends_throw fun h => nomatch h
  · exact spends_pure _

theorem spends_finishDimen (hx : x.Counts levels) (negative : Bool) (first : Token) (whole : Int)
    (part : Dimen) : (Reader.finishDimen x negative first whole part).Spends levels := by
  unfold Reader.finishDimen
  generalize (if whole < 0 then (!negative, Word.wrap (-whole)) else (negative, whole)) = signed
  obtain ⟨negative, whole⟩ := signed
  refine (spends_scaled hx _ _).bind fun d? => ?_
  cases d? with
  | none => exact spends_fail _
  | some d =>
    dsimp only
    split
    · exact spends_negate d
    · exact spends_pure d

theorem spends_dimen (hx : x.Counts levels) : (Reader.dimen x).Spends levels := by
  have hs := takes_expanded hx
  refine consumes_of_takes fun m₀ => (spends_signs hs).takes.bind fun negative us _ => ?_
  refine (consumes_nextOr hs _).takes_bind ?_
  rintro first _ rfl
  have hfinish (whole : Int) (part : Dimen) := spends_finishDimen hx negative first whole part
  have hdecimals (whole : Int) : (do
      Reader.finishDimen x negative first whole (← Reader.decimals (Stream.expanded x)) :
        Run Dimen).Spends levels :=
    (spends_decimals hs).bind fun part => hfinish whole part
  dsimp only
  split
  · refine (takes_internalNumber (spends_numberAt hx).takes _ _).bind fun v _ _ => ?_
    cases v with
    | integer n => exact (hfinish _ _).takes
    | dimen d =>
      dsimp only
      split
      · exact (spends_negate d).takes
      · exact takes_pure trivial
  · split
    · exact (hdecimals _).takes
    · split
      · refine Spends.takes ((spends_digits hs _ _ _).bind fun n => ?_)
        refine (consumes_take?_ne_nil hs _).spends.bind fun found => ?_
        cases found with
        | none => exact hfinish _ _
        | some _ => exact hdecimals _
      · refine (takes_pushBack first).bind fun _ _ _ => ?_
        exact Spends.takes ((spends_number hx).bind fun n => hfinish _ _)

end Gullet.Run

import Gullet.Proofs.Unfolding.Acts
import Gullet.Proofs.Unfolding.Relating

/-!
# Runs that go side by side

Often the same happens on two machines that differ in a part that makes no difference. To show this, the
two runs are coupled: it is said which machines belong together, and each act has to lead from such
machines to such machines, with the same result. Couplings may have exceptions: failures that stop only
one of the runs, and machines from which on the first run says nothing about the second one.

Of what actions are put together from, most respects every coupling; left to the single ones are the acts
on the input and on the branches of conditionals, and what the limits to expansion refuse.
-/

namespace Gullet

namespace Machine

/-- The function has nothing to do with the input, with where tokens come from, with the open branches of
conditionals, and with what limits to expansion refer to. Mostly that is to be seen at once. -/
structure Incidental (f : Machine → Machine) : Prop where
  input (m : Machine) (i : Input) : f { m with input := i } = { f m with input := i } := by intros; rfl
  branches (m : Machine) (bs : List Branch) :
    f { m with branches := bs } = { f m with branches := bs } := by intros; rfl
  counters (m : Machine) (expansions expansionDepth : Nat) :
    f { m with expansions, expansionDepth } = { f m with expansions, expansionDepth } := by intros; rfl
  atlas (m : Machine) : (f m).atlas = m.atlas := by intros; rfl
  config (m : Machine) : (f m).config = m.config := by intros; rfl

end Machine

namespace Run

variable {α : Type}

/-- An action that is refused where expansion is nested too deep. -/
def nested (t? : Option Token) (a : Run α) : Run α := do
  let m ← get
  if m.config.maxExpansionDepth ≤ m.expansionDepth then
    Run.fail (.limitExceeded t? .expansionDepth m.config.maxExpansionDepth)
  else a

theorem region_eq_nested (l : TokenList) (a : Run α) :
    region l a =
      nested l.tokens.head? fun m => ((a (m.inRegion l)).1, m.leaveRegion (a (m.inRegion l)).2) := by
  funext m
  unfold nested
  rw [get_bind_eval]
  split
  case isTrue hd => exact region_of_le hd
  case isFalse hd => exact region_of_lt (Nat.lt_of_not_le hd)

theorem deeper_eq_nested (t : Token) (a : Run α) :
    Expansion.deeper t a = nested (some t) fun m =>
      let p := a { m with expansionDepth := m.expansionDepth + 1 }
      (p.1, { p.2 with expansionDepth := p.2.expansionDepth - 1 }) := by
  funext m
  unfold Expansion.deeper nested
  rw [get_bind_eval]
  dsimp only
  split
  · rfl
  · rfl

end Run

/-- What reading the next token from the input gives. -/
def Machine.reading (m : Machine) : Input.Reading :=
  Input.read m.codeOf m.config.retainComments true m.input.sources

/-- The machine with the sources that are left when the next token has been read. -/
def Machine.hasRead (m : Machine) : Machine := { m with input := ⟨m.reading.sources⟩ }

namespace Run

/-- What is done when the next token has been read. -/
def finishRead (r : Input.Reading) : Stream := do
  r.comments.forM fun c => emit (.skipping c)
  match r.result with
  | .ok t? => return t?
  | .error e => Stream.refuse e

theorem raw_eq_finishRead (m : Machine) : Stream.raw m =
    if m.cancellation.raised then fail .cancelled m else finishRead m.reading m.hasRead := by
  unfold Stream.raw
  rw [get_bind_eval]
  split
  · rfl
  · rfl

end Run

/-- How two runs are coupled, each on a machine of its own. What is known of two machines may depend on
where the runs began, which the indices tell. -/
structure Coupling (ι : Type) where
  /-- The machines belong together. -/
  Joins : ι → Machine → Machine → Prop
  /-- What may stop the first run while the second one goes on. -/
  First : Halt → Prop
  /-- What may stop the second run while the first one goes on. -/
  Second : Halt → Prop
  /-- When the first run has come to the machine, the second one may do anything. -/
  Parted : ι → Machine → Prop
  /-- What the first run always keeps to. -/
  Stays : Machine → Machine → Prop

namespace Coupling

variable {ι : Type}

/-- Of runs that go on from the two machines, only one may stop for want of progress, if this is an
exception. -/
structure Paced (C : Coupling ι) (m n : Machine) : Prop where
  first {i : ι} {m' n' : Machine} (h : C.Joins i m' n') (hm : ¬Run.Progress m m')
    (hn : Run.Progress n n') : C.First .outOfSteps
  second {i : ι} {m' n' : Machine} (h : C.Joins i m' n') (hm : Run.Progress m m')
    (hn : ¬Run.Progress n n') : C.Second .outOfSteps

/-- When the machines leave a region for which the index is `j`, it is `i` again. -/
structure Returns (C : Coupling ι) (l : TokenList) (j i : ι) (m n : Machine) : Prop where
  joins {m' n' : Machine} (hs : C.Stays (m.inRegion l) m') (h : C.Joins j m' n') :
    C.Joins i (m.leaveRegion m') (n.leaveRegion n')
  parted {m' : Machine} (h : C.Parted j m') : C.Parted i (m.leaveRegion m')

/-- What a coupling has to allow for. -/
class Lawful (C : Coupling ι) : Prop extends IsPreorder Machine C.Stays where
  looksLike {i : ι} {m n : Machine} (h : C.Joins i m n) : m.LooksLike n
  /-- Runs that have parted do not come together again. -/
  parted {i : ι} {m m' : Machine} (h : C.Parted i m) (hs : C.Stays m m') : C.Parted i m'
  /-- Whatever is not seen may be changed in both machines. -/
  incidental {f : Machine → Machine} (hf : Machine.Incidental f) {i : ι} {m n : Machine}
    (h : C.Joins i m n) : C.Joins i (f m) (f n)
  incidental_stays {f : Machine → Machine} (hf : Machine.Incidental f) (m : Machine) : C.Stays m (f m)
  /-- Both machines go deeper, or come up again. -/
  deepen {f : Nat → Nat} (hf : ∀ ⦃a b⦄, a ≤ b → f a ≤ f b) {i : ι} {m n : Machine} (h : C.Joins i m n) :
    C.Joins i { m with expansionDepth := f m.expansionDepth }
      { n with expansionDepth := f n.expansionDepth }
  deepen_stays (f : Nat → Nat) (m : Machine) :
    C.Stays m { m with expansionDepth := f m.expansionDepth }
  /-- A failure is still the same when it has passed through a command. -/
  first_within {d : Diagnostic} (h : C.First (.failed d)) (atlas : Atlas) (operation : Operation)
    (t : Token) : C.First (.failed (d.within atlas operation t))
  second_within {d : Diagnostic} (h : C.Second (.failed d)) (atlas : Atlas) (operation : Operation)
    (t : Token) : C.Second (.failed (d.within atlas operation t))
  paced {i : ι} {m n : Machine} (h : C.Joins i m n) : C.Paced m n
  exists_paced (m : Machine) : ∃ n, C.Paced m n
  /-- Both machines enter a region. -/
  enter (l : TokenList) {i : ι} {m n : Machine} (h : C.Joins i m n) :
    ∃ j, C.Joins j (m.inRegion l) (n.inRegion l) ∧ C.Returns l j i m n
  region_stays (l : TokenList) {m m' : Machine} (h : C.Stays (m.inRegion l) m') :
    C.Stays m (m.leaveRegion m')

variable {α β : Type}

/-- Two runs have ended in the same way and with machines that belong together; or there is an exception.
-/
inductive Meets (C : Coupling ι) (i : ι) :
    Except Halt α × Machine → Except Halt α × Machine → Prop where
  | same (r : Except Halt α) {m n : Machine} (h : C.Joins i m n) : Meets C i (r, m) (r, n)
  | first {halt : Halt} (h : C.First halt) (m : Machine) (q : Except Halt α × Machine) :
      Meets C i (.error halt, m) q
  | second {halt : Halt} (h : C.Second halt) (p : Except Halt α × Machine) (n : Machine) :
      Meets C i p (.error halt, n)
  | parted {p : Except Halt α × Machine} (h : C.Parted i p.2) (q : Except Halt α × Machine) :
      Meets C i p q

/-- The actions go side by side, from machines that belong together. -/
structure Couples (C : Coupling ι) (a a' : Run α) : Prop where
  meets {i : ι} {m n : Machine} (h : C.Joins i m n) : C.Meets i (a m) (a' n)
  stays : a.Keeps C.Stays

/-- The relation between actions that go side by side. -/
def Coupled (C : Coupling ι) : Run.Relation := fun _ a a' => C.Couples a a'

variable {C : Coupling ι} {i : ι} {m n : Machine}

namespace Meets

/-- Afterwards something is done to both machines. -/
theorem map {j : ι} {f g : Machine → Machine} {p q : Except Halt α × Machine} (h : C.Meets i p q)
    (hjoins : ∀ {n}, C.Joins i p.2 n → C.Joins j (f p.2) (g n))
    (hparted : C.Parted i p.2 → C.Parted j (f p.2)) : C.Meets j (p.1, f p.2) (q.1, g q.2) := by
  cases h with
  | same r h => exact .same r (hjoins h)
  | first h m q => exact .first h _ _
  | second h p n => exact .second h _ _
  | parted h q => exact .parted (hparted h) _

theorem bind [C.Lawful] {a a' : Run α} {f f' : α → Run β} (ha : C.Meets i (a m) (a' n))
    (hf : ∀ x, a.MayGive x → C.Couples (f x) (f' x)) :
    C.Meets i ((a >>= f) m) ((a' >>= f') n) := by
  rw [Run.bind_eval, Run.bind_eval]
  generalize hp : a m = p, a' n = q at ha
  cases ha with
  | same r h =>
    cases r with
    | error halt => exact .same _ h
    | ok x => exact (hf x ⟨_, _, hp⟩).meets h
  | first h m' q => exact .first h _ _
  | second h p n' => exact .second h _ _
  | @parted p h q =>
    refine .parted ?_ _
    rcases p with ⟨halt | x, m'⟩
    · exact h
    · exact Lawful.parted h ((hf x ⟨_, _, hp⟩).stays m')

end Meets

namespace Couples

variable {a a' : Run α}

/-- Doing something to both machines. -/
theorem update {f : Machine → Machine} (hjoins : ∀ {i m n}, C.Joins i m n → C.Joins i (f m) (f n))
    (hstays : ∀ m, C.Stays m (f m)) : C.Couples (α := PUnit) (modify f) (modify f) :=
  ⟨fun h => .same _ (hjoins h), hstays⟩

variable [C.Lawful]

theorem pure (x : α) : C.Couples (Pure.pure x) (Pure.pure x) := ⟨.same _, Run.keeps_pure x⟩

theorem throw (halt : Halt) :
    C.Couples (MonadExcept.throw halt : Run α) (MonadExcept.throw halt) :=
  ⟨.same _, Run.keeps_throw halt⟩

/-- What follows need only go side by side after a result that can be given. -/
theorem bind_of_mayGive {f f' : α → Run β} (ha : C.Couples a a')
    (hf : ∀ x, a.MayGive x → C.Couples (f x) (f' x)) : C.Couples (a >>= f) (a' >>= f') :=
  ⟨fun h => (ha.meets h).bind hf, ha.stays.bind_of_mayGive fun x hx => (hf x hx).stays⟩

theorem bind {f f' : α → Run β} (ha : C.Couples a a') (hf : ∀ x, C.Couples (f x) (f' x)) :
    C.Couples (a >>= f) (a' >>= f') := ha.bind_of_mayGive fun x _ => hf x

theorem forM {xs : List β} {f f' : β → Run PUnit} (hf : ∀ x, C.Couples (f x) (f' x)) :
    C.Couples (xs.forM f) (xs.forM f') := by
  induction xs with
  | nil => exact .pure _
  | cons x rest ih => exact (hf x).bind fun _ => ih

/-- Doing something that has nothing to do with what the machines differ in. -/
theorem incidental {f : Machine → Machine} (hf : Machine.Incidental f) :
    C.Couples (α := PUnit) (modify f) (modify f) :=
  .update (Lawful.incidental hf) (Lawful.incidental_stays hf)

theorem get {f f' : Machine → Run α} (h : ∀ m n, m.LooksLike n → C.Couples (f m) (f' n)) :
    C.Couples (MonadState.get >>= f) (MonadState.get >>= f') where
  meets hmn := (h _ _ (Lawful.looksLike hmn)).meets hmn
  stays m := (h m m (.refl m)).stays m

theorem fail (f : Fault) : C.Couples (Run.fail f : Run α) (Run.fail f) :=
  .get fun m n h => by
    rw [h.atlas]
    exact .throw _

theorem refuse (e : LexError) : C.Couples (Stream.refuse e) (Stream.refuse e) :=
  .get fun m n h => by
    rw [h.atlas]
    exact .throw _

theorem lookup (ref : CommandRef) : C.Couples (Run.lookup ref) (Run.lookup ref) :=
  .get fun m n h => by
    rw [h.lookup]
    exact .pure _

theorem during (operation : Operation) (t : Token) (ha : C.Couples a a') :
    C.Couples (Run.during operation t a) (Run.during operation t a') where
  meets {i m n} h := by
    have hmeets := ha.meets h
    unfold Run.during
    rw [Run.tryCatch_eval, Run.tryCatch_eval]
    generalize a m = p, a' n = q at hmeets
    cases hmeets with
    | @same r m' n' h' =>
      rcases r with (d | _ | _ | _) | x
      · -- both failures are told with the same places
        show C.Meets i (.error (.failed (d.within m'.atlas operation t)), m')
          (.error (.failed (d.within n'.atlas operation t)), n')
        rw [(Lawful.looksLike h').atlas]
        exact .same _ h'
      · exact .same _ h'
      · exact .same _ h'
      · exact .same _ h'
      · exact .same _ h'
    | @first halt hfirst m' q =>
      cases halt with
      | failed d => exact .first (Lawful.first_within hfirst _ operation t) _ _
      | overflow => exact .first hfirst _ _
      | reversedSlice => exact .first hfirst _ _
      | outOfSteps => exact .first hfirst _ _
    | @second halt hsecond p n' =>
      cases halt with
      | failed d => exact .second (Lawful.second_within hsecond _ operation t) _ _
      | overflow => exact .second hsecond _ _
      | reversedSlice => exact .second hsecond _ _
      | outOfSteps => exact .second hsecond _ _
    | @parted p h' q =>
      refine .parted ?_ _
      rcases p with ⟨(d | _ | _ | _) | x, m'⟩
      · exact h'
      · exact h'
      · exact h'
      · exact h'
      · exact h'
  stays := ha.stays.during operation t

/-! ### Repetition -/

theorem loop {step step' : β → Run (β ⊕ α)} (h : ∀ b, C.Couples (step b) (step' b)) (b : β) :
    C.Couples (Run.loop step b) (Run.loop step' b) where
  meets {i m n} hmn := by
    induction m using Run.progress_induction generalizing b n with
    | h m ih =>
      have hround := (h b).meets hmn
      cases hm : step b m with
      | mk r m' =>
        cases hn : step' b n with
        | mk r' n' =>
          rw [hm, hn] at hround
          cases hround with
          | same r h' =>
            rcases r with halt | b' | x
            · rw [Run.loop_of_error hm, Run.loop_of_error hn]
              exact .same _ h'
            · by_cases hm' : Run.Progress m m'
              · by_cases hn' : Run.Progress n n'
                · rw [Run.loop_of_progress hm hm', Run.loop_of_progress hn hn']
                  exact ih m' hm' b' h'
                · rw [Run.loop_of_stall hn hn']
                  exact .second ((Lawful.paced hmn).second h' hm' hn') _ _
              · by_cases hn' : Run.Progress n n'
                · rw [Run.loop_of_stall hm hm']
                  exact .first ((Lawful.paced hmn).first h' hm' hn') _ _
                · rw [Run.loop_of_stall hm hm', Run.loop_of_stall hn hn']
                  exact .same _ h'
            · rw [Run.loop_of_answer hm, Run.loop_of_answer hn]
              exact .same _ h'
          | first hfirst m' q =>
            rw [Run.loop_of_error hm]
            exact .first hfirst _ _
          | second hsecond p n' =>
            rw [Run.loop_of_error hn]
            exact .second hsecond _ _
          | parted h' q =>
            refine .parted ?_ _
            rcases r with halt | b' | x
            · rw [Run.loop_of_error hm]
              exact h'
            · by_cases hm' : Run.Progress m m'
              · rw [Run.loop_of_progress hm hm']
                exact Lawful.parted h' (Run.Keeps.loop (fun b => (h b).stays) b' m')
              · rw [Run.loop_of_stall hm hm']
                exact h'
            · rw [Run.loop_of_answer hm]
              exact h'
  stays := Run.Keeps.loop (fun b => (h b).stays) b

theorem fix {body body' : Run α → Run α}
    (h : ∀ again again' : Run α, C.Couples again again' → C.Couples (body again) (body' again')) :
    C.Couples (Run.fix body) (Run.fix body') := by
  have hboth (m : Machine) : (∀ i n, C.Joins i m n → C.Meets i (Run.fix body m) (Run.fix body' n)) ∧
      C.Stays m (Run.fix body m).2 := by
    induction m using Run.progress_induction with
    | h m ih =>
      -- the calls that the two actions make of themselves
      have hcalls {n : Machine} (hpaced : C.Paced m n) : C.Couples
          (fun m' => if Run.Progress m m' then Run.fix body m' else (.error .outOfSteps, m'))
          (fun n' => if Run.Progress n n' then Run.fix body' n' else (.error .outOfSteps, n')) := by
        refine ⟨fun {i m' n'} h' => ?_, fun m' => ?_⟩
        · by_cases hm : Run.Progress m m'
          · by_cases hn : Run.Progress n n'
            · rw [if_pos hm, if_pos hn]
              exact (ih m' hm).1 i n' h'
            · rw [if_neg hn]
              exact .second (hpaced.second h' hm hn) _ _
          · by_cases hn : Run.Progress n n'
            · rw [if_neg hm]
              exact .first (hpaced.first h' hm hn) _ _
            · rw [if_neg hm, if_neg hn]
              exact .same _ h'
        · split
          case isTrue hm => exact (ih m' hm).2
          case isFalse => exact refl_of C.Stays m'
      rw [Run.fix_eq]
      refine ⟨fun i n hmn => ?_, ?_⟩
      · rw [Run.fix_eq]
        exact (h _ _ (hcalls (Lawful.paced hmn))).meets hmn
      · obtain ⟨n, hpaced⟩ := Lawful.exists_paced (C := C) m
        exact (h _ _ (hcalls hpaced)).stays m
  exact ⟨fun hmn => (hboth _).1 _ _ hmn, fun m => (hboth m).2⟩

/-! ### Acts of expansion -/

theorem name (ref : CommandRef) (ha : C.Couples a a') :
    C.Couples
      (do
        let command ← Run.lookup ref
        if command.isDefined = true then a
        else
          Run.bindRef .inner ref (.execution .relax)
          a)
      (do
        let command ← Run.lookup ref
        if command.isDefined = true then a'
        else
          Run.bindRef .inner ref (.execution .relax)
          a') := by
  have hbind : C.Couples (Run.bindRef .inner ref (.execution .relax))
      (Run.bindRef .inner ref (.execution .relax)) :=
    incidental {}
  refine (lookup ref).bind fun command => ?_
  split
  · exact ha
  · exact hbind.bind fun _ => ha

omit [C.Lawful] in
theorem nested_stays [IsPreorder Machine C.Stays] (ha : C.Couples a a') (t? : Option Token) :
    (Run.nested t? a).Keeps C.Stays := by
  refine Run.keeps_get.bind fun m => ?_
  split
  · exact Run.keeps_fail _
  · exact ha.stays

/-- A bracket around both actions. -/
theorem bracket {f g : Machine → Machine} (hf : ∀ {i m n}, C.Joins i m n → C.Joins i (f m) (f n))
    (hfstays : ∀ m, C.Stays m (f m)) (hg : ∀ {i m n}, C.Joins i m n → C.Joins i (g m) (g n))
    (hgstays : ∀ m, C.Stays m (g m)) (ha : C.Couples a a') :
    C.Couples (fun m => ((a (f m)).1, g (a (f m)).2)) (fun m => ((a' (f m)).1, g (a' (f m)).2)) where
  meets h := (ha.meets (hf h)).map hg fun hp => Lawful.parted hp (hgstays _)
  stays m := trans_of C.Stays (hfstays m) (trans_of C.Stays (ha.stays _) (hgstays _))

theorem shielding (ha : C.Couples a a') : C.Couples (Run.shielding a) (Run.shielding a') := by
  let enter : Machine → Machine := fun m => { m with fullExpansions := m.fullExpansions + 1 }
  let leave : Machine → Machine := fun m => { m with fullExpansions := m.fullExpansions - 1 }
  have henter : Machine.Incidental enter := {}
  have hleave : Machine.Incidental leave := {}
  exact ha.bracket (Lawful.incidental henter) (Lawful.incidental_stays henter)
    (Lawful.incidental hleave) (Lawful.incidental_stays hleave)

/-- What the limit on nesting refuses, where machines that belong together are equally deep. -/
theorem nested_of_level
    (hlevel : ∀ {i m n}, C.Joins i m n → n.expansionDepth = m.expansionDepth) (t? : Option Token)
    (ha : C.Couples a a') : C.Couples (Run.nested t? a) (Run.nested t? a') := by
  refine ⟨fun {i m n} hmn => ?_, fun m => ?_⟩
  · unfold Run.nested
    rw [Run.get_bind_eval, Run.get_bind_eval, (Lawful.looksLike hmn).config, hlevel hmn]
    split
    · exact (fail _).meets hmn
    · exact ha.meets hmn
  · exact ha.nested_stays t? m

/-- Counting an expansion, where as many have been counted on machines that belong together. -/
theorem count_of_level (hlevel : ∀ {i m n}, C.Joins i m n → n.expansions = m.expansions)
    (hcount : C.Couples (α := PUnit) (modify fun m => { m with expansions := m.expansions + 1 })
      (modify fun m => { m with expansions := m.expansions + 1 })) (t : Token) :
    C.Couples (Expansion.count t) (Expansion.count t) := by
  refine hcount.bind fun _ => ⟨fun {i m n} hmn => ?_, fun m => ?_⟩
  · rw [Run.get_bind_eval, Run.get_bind_eval, (Lawful.looksLike hmn).config, hlevel hmn]
    split
    · exact (fail _).meets hmn
    · exact (pure _).meets hmn
  · rw [Run.get_bind_eval]
    split
    · exact (fail (C := C) _).stays m
    · exact refl_of C.Stays m

/-- Reading a token, if the same is read from the sources of both machines. -/
theorem raw_of_reading
    (hjoins : ∀ {i m n}, C.Joins i m n → C.Parted i m.hasRead ∨
      n.reading.result = m.reading.result ∧ n.reading.comments = m.reading.comments ∧
        C.Joins i m.hasRead n.hasRead)
    (hstays : ∀ m, C.Stays m m.hasRead) : C.Couples Stream.raw Stream.raw := by
  have hfinish (r r' : Input.Reading) (hresult : r'.result = r.result)
      (hcomments : r'.comments = r.comments) : C.Couples (Run.finishRead r) (Run.finishRead r') := by
    unfold Run.finishRead
    rw [hresult, hcomments]
    refine bind (forM fun c => ?_) fun _ => ?_
    · exact incidental {}
    · split
      · exact .pure _
      · exact .refuse _
  refine ⟨fun {i m n} h => ?_, fun m => ?_⟩
  · have hcancellation : n.cancellation = m.cancellation := by rw [(Lawful.looksLike h).others]
    rw [Run.raw_eq_finishRead, Run.raw_eq_finishRead, hcancellation]
    split
    · exact (fail .cancelled).meets h
    · rcases hjoins h with hp | ⟨hresult, hcomments, hj⟩
      · exact .parted (Lawful.parted hp ((hfinish _ _ rfl rfl).stays _)) _
      · exact (hfinish _ _ hresult hcomments).meets hj
  · rw [Run.raw_eq_finishRead]
    split
    · exact refl_of C.Stays m
    · exact trans_of C.Stays (hstays m) ((hfinish _ _ rfl rfl).stays _)

/-- Closing a branch, where machines that belong together have the same branches. -/
theorem leave {after after' : Branch → Run Unit} (t : Token) (d : Divider)
    (hbranches : ∀ {i m n}, C.Joins i m n → n.branches = m.branches)
    (hclose : C.Couples Conditional.closeBranch Conditional.closeBranch)
    (h : ∀ b, C.Couples (after b) (after' b)) :
    C.Couples (Conditional.leave t d after) (Conditional.leave t d after') := by
  refine ⟨fun {i m n} hmn => ?_, fun m => ?_⟩
  · unfold Conditional.leave
    rw [Run.get_bind_eval, Run.get_bind_eval, hbranches hmn]
    cases m.branches with
    | nil => exact (fail _).meets hmn
    | cons b bs =>
      dsimp only
      split
      · exact (hclose.bind fun _ => h b).meets hmn
      · exact (fail _).meets hmn
  · unfold Conditional.leave
    rw [Run.get_bind_eval]
    cases m.branches with
    | nil => exact (fail (C := C) (.unexpectedDivider t d)).stays m
    | cons b bs =>
      dsimp only
      split
      · exact (hclose.bind fun _ => h b).stays m
      · exact (fail (C := C) (.unexpectedDivider t d)).stays m

end Couples

/-- A coupling that the acts on the input and on the branches of conditionals respect, and what the limits
to expansion refuse. -/
class Expanding (C : Coupling ι) : Prop extends C.Lawful where
  raw : C.Couples Stream.raw Stream.raw
  pushTokens (ts : List Token) : C.Couples (Run.pushTokens ts) (Run.pushTokens ts)
  openSource (origin : Origin) (content : String) :
    C.Couples (Run.openSource origin content) (Run.openSource origin content)
  endInput : C.Couples Inclusion.endInput Inclusion.endInput
  openBranch (b : Branch) : C.Couples (Conditional.openBranch b) (Conditional.openBranch b)
  leave {a a' : Branch → Run Unit} (t : Token) (d : Divider) (h : ∀ b, C.Couples (a b) (a' b)) :
    C.Couples (Conditional.leave t d a) (Conditional.leave t d a')
  count (t : Token) : C.Couples (Expansion.count t) (Expansion.count t)
  nested {α : Type} {a a' : Run α} (t? : Option Token) (ha : C.Couples a a') :
    C.Couples (Run.nested t? a) (Run.nested t? a')

namespace Couples

variable [C.Expanding] {a a' : Run α}

theorem deeper (t : Token) (ha : C.Couples a a') :
    C.Couples (Expansion.deeper t a) (Expansion.deeper t a') := by
  rw [Run.deeper_eq_nested, Run.deeper_eq_nested]
  exact Expanding.nested _ (ha.bracket
    (f := fun m => { m with expansionDepth := m.expansionDepth + 1 })
    (g := fun m => { m with expansionDepth := m.expansionDepth - 1 })
    (Lawful.deepen fun _ _ => Nat.succ_le_succ) (Lawful.deepen_stays (· + 1))
    (Lawful.deepen fun _ _ h => Nat.sub_le_sub_right h 1) (Lawful.deepen_stays (· - 1)))

theorem region (l : TokenList) (ha : C.Couples a a') :
    C.Couples (Run.region l a) (Run.region l a') := by
  rw [Run.region_eq_nested, Run.region_eq_nested]
  refine Expanding.nested _ ⟨fun {i m n} hmn => ?_, fun m => Lawful.region_stays l (ha.stays _)⟩
  obtain ⟨j, hin, hout⟩ := Lawful.enter l hmn
  exact (ha.meets hin).map (hout.joins (ha.stays _)) hout.parted

end Couples

/-- Such a coupling is respected by all that expansion is made of. -/
instance (C : Coupling ι) [C.Expanding] : Run.Overflowing C.Coupled where
  pure := Couples.pure
  throw _ := Couples.throw _
  overflow := Couples.throw _
  bind := Couples.bind_of_mayGive
  get := Couples.get
  during operation t ha := Couples.during operation t ha
  loop := Couples.loop
  fix := Couples.fix
  raw := Expanding.raw
  pushTokens := Expanding.pushTokens
  announce _ := Couples.incidental {}
  writeLog _ := Couples.incidental {}
  writeTerminal _ := Couples.incidental {}
  name := Couples.name
  openBranch := Expanding.openBranch
  leave := Expanding.leave
  count := Expanding.count
  openSource := Expanding.openSource
  endInput := Expanding.endInput
  region := Couples.region
  deeper := Couples.deeper
  shielding := Couples.shielding

end Coupling

end Gullet

import Gullet.Proofs.Input.Weight
import Gullet.Proofs.Taking.Execution

/-!
# What is left after a token is processed

Processing a token uses up some of the expansions, some of the bytes of files, or some of the weight of
the tokens that come next, in this order of importance. The one exception is a token that runs `\end`
under another name: what is put in front of the input then may contain this name again.
-/

namespace Gullet

namespace Machine

/-- There is less to be done than before. -/
inductive Shrinks (m m' : Machine) : Prop where
  /-- Fewer expansions are left. -/
  | expanded (h : m'.expansionsLeft < m.expansionsLeft)
  /-- Fewer bytes are to be read. -/
  | read (he : m'.expansionsLeft = m.expansionsLeft)
      (h : Input.unread m'.input.sources < Input.unread m.input.sources)
  /-- The tokens that come next can lead to fewer runs of `\end`. -/
  | unended (he : m'.expansionsLeft = m.expansionsLeft)
      (hu : Input.unread m'.input.sources = Input.unread m.input.sources)
      (h : endings (Input.upcoming m'.input.sources) < endings (Input.upcoming m.input.sources))
  /-- There are fewer tokens. -/
  | lighter (he : m'.expansionsLeft = m.expansionsLeft)
      (hu : Input.unread m'.input.sources = Input.unread m.input.sources)
      (h : endings (Input.upcoming m'.input.sources) = endings (Input.upcoming m.input.sources))
      (hb : bulk (Input.upcoming m'.input.sources) < bulk (Input.upcoming m.input.sources))

/-- What is left to be done, most important first. -/
def burden (m : Machine) : Nat × Nat × Nat × Nat :=
  (m.expansionsLeft, Input.unread m.input.sources, endings (Input.upcoming m.input.sources),
    bulk (Input.upcoming m.input.sources))

/-- There cannot be less to be done again and again. -/
theorem wellFounded_shrinks : WellFounded fun m' m : Machine => m.Shrinks m' := by
  have hlex := (inferInstance : WellFoundedRelation (Nat × Nat × Nat × Nat)).wf
  refine Subrelation.wf ?_ (InvImage.wf burden hlex)
  intro m' m h
  show Prod.Lex _ _ (burden m') (burden m)
  unfold burden
  cases h with
  | expanded h => exact .left _ _ h
  | read he h =>
    rw [he]
    exact .right _ (.left _ _ h)
  | unended he hu h =>
    rw [he, hu]
    exact .right _ (.right _ (.left _ _ h))
  | lighter he hu h hb =>
    rw [he, hu, h]
    exact .right _ (.right _ (.right _ hb))

variable {m m' : Machine} {ps us : List Token}

/-- Lighter tokens stand in the place of those that were taken. -/
theorem Took.shrinks_of_lighter {m'' : Machine} (h : m.Took us m') (hl : Lighter ps us)
    (hleft : m''.expansionsLeft = m'.expansionsLeft)
    (hunread : Input.unread m''.input.sources = Input.unread m'.input.sources)
    (hpush : Input.upcoming m''.input.sources = ps ++ Input.upcoming m'.input.sources) :
    m.Shrinks m'' := by
  rcases h.input with hlt | ⟨heq, htook⟩
  · exact .expanded (by omega)
  · have heq : m''.expansionsLeft = m.expansionsLeft := hleft.trans heq
    rcases htook.upcoming with hlt | ⟨hsame, hup⟩
    · exact .read heq (by omega)
    · have hsame : Input.unread m''.input.sources = Input.unread m.input.sources := hunread.trans hsame
      have hweight := hl (Input.upcoming m'.input.sources)
      rw [← hpush, ← hup] at hweight
      rcases hweight with hlt | ⟨hle, hlt⟩
      · exact .unended heq hsame hlt
      · rcases Nat.lt_or_eq_of_le hle with hlt' | hendings
        · exact .unended heq hsame hlt'
        · refine .lighter heq hsame hendings ?_
          rw [hpush, hup, bulk_append, bulk_append]
          exact Nat.add_lt_add_right hlt _

theorem Took.shrinks_pushAll (h : m.Took us m') (hl : Lighter ps us) :
    m.Shrinks { m' with input := m'.input.pushAll ps } :=
  h.shrinks_of_lighter hl rfl (Input.unread_pushAll _ _) (Input.upcoming_pushAll _ _)

theorem Took.shrinks (h : m.Took us m') (hus : us ≠ []) : m.Shrinks m' :=
  h.shrinks_of_lighter (lighter_nil hus) rfl rfl rfl

/-- The token runs `\end`, but is not `\end`. -/
def RenamesEnd (m : Machine) (t : Token) : Prop :=
  ∃ ref, t.value = .command ref ∧ ref ≠ .controlSequence "end" ∧
    m.lookup ref = .execution .endEnvironment

end Machine

namespace Run

variable {α β : Type} {levels : Nat} {m₀ : Machine} {us : List Token} {a : Run α}

/-- When tokens have been taken since the machine `m₀`, the action leaves less to be done than there was
then. -/
def Lessens (levels : Nat) (m₀ : Machine) (us : List Token) (a : Run α) : Prop :=
  m₀.Ready levels → ∀ m, m₀.Took us m → a.Ensures m fun _ m' => m₀.Continues m' ∧ m₀.Shrinks m'

theorem Takes.lessens_bind {A : α → List Token → Prop} {f : α → Run β} (ha : a.Takes levels m₀ us A)
    (hf : ∀ x ts, A x ts → (f x).Lessens levels m₀ ts) : (a >>= f).Lessens levels m₀ us := by
  intro hready m htook
  refine (ha hready m htook).bind ?_
  rintro x m' ⟨ts, hx, htook'⟩
  exact hf x ts hx hready m' htook'

theorem Consumes.lessens_bind {A : α → List Token → Prop} {f : α → Run β}
    (ha : a.Consumes levels A) (hf : ∀ x vs, A x vs → (f x).Lessens levels m₀ (us ++ vs)) :
    (a >>= f).Lessens levels m₀ us := by
  refine ha.takes.lessens_bind ?_
  rintro x ts ⟨vs, hx, rfl⟩
  exact hf x vs hx

theorem Stays.lessens_bind {f : α → Run β} (ha : a.Stays)
    (hf : ∀ x, (f x).Lessens levels m₀ us) : (a >>= f).Lessens levels m₀ us := by
  refine ha.consumes.lessens_bind ?_
  rintro x _ rfl
  rw [List.append_nil]
  exact hf x

theorem Lessens.during (operation : Operation) (t : Token) (ha : a.Lessens levels m₀ us) :
    (Run.during operation t a).Lessens levels m₀ us :=
  fun hready m htook => (ha hready m htook).during operation t

theorem Spends.lessens (ha : a.Spends levels) (hus : us ≠ []) : a.Lessens levels m₀ us := by
  intro hready m htook
  refine (ha m (hready.of_continues htook.continues)).mono ?_
  rintro x m' ⟨vs, -, htook'⟩
  have h := htook.trans htook'
  exact ⟨h.continues, h.shrinks (List.append_ne_nil_of_left_ne_nil hus vs)⟩

theorem lessens_pushTokens {ps : List Token} (h : Lighter ps us) :
    (pushTokens ps).Lessens levels m₀ us := by
  intro _ m htook
  have hpush : m.Continues { m with input := m.input.pushAll ps } := (Machine.Evolves.push m ps).continues
  exact ensures_modify ⟨htook.continues.trans hpush, htook.shrinks_pushAll h⟩

/-! ### Commands that put tokens in front of the input -/

theorem lessens_inGroup {t : Token} {ts body : List Token} (ht : t.value.isEndGroup = false)
    (h : IsArgument ts body) (change : Settings → Settings) :
    (Typesetting.inGroup t change body).Lessens levels m₀ (t :: ts) :=
  (stays_beginGroup _ t).lessens_bind fun _ => (stays_mapSettings change).lessens_bind fun _ =>
    lessens_pushTokens (lighter_group ht h t.key)

theorem lessens_styled {t : Token} (ht : t.value.isEndGroup = false) (change : SettingsChange) :
    (Typesetting.styled change t).Lessens levels m₀ [t] :=
  consumes_argument.lessens_bind fun _ _ h => lessens_inGroup ht h _

theorem lessens_textColor {t : Token} (ht : t.value.isEndGroup = false) :
    (Typesetting.textColor t).Lessens levels m₀ [t] := by
  refine Consumes.lessens_bind spends_colorName fun name ts _ => ?_
  refine consumes_argument.lessens_bind fun body us h => ?_
  rw [List.append_assoc]
  exact lessens_inGroup ht (h.append ts) _

theorem lessens_beginEnvironment {t : Token} (ht : t.value.isEndGroup = false) :
    (Execution.beginEnvironment t).Lessens levels m₀ [t] := by
  refine (consumes_environmentName t).lessens_bind fun name ts ⟨hlabel, _⟩ => ?_
  refine (stays_beginGroup _ t).lessens_bind fun _ => (stays_lookup _).lessens_bind fun command => ?_
  split
  · exact lessens_pushTokens (lighter_beginning ht hlabel t.key)
  · exact (stays_recoverable _).spends.lessens (List.cons_ne_nil t ts)

theorem lessens_endEnvironment {t : Token} (ht : t.value = .controlSequence "end") :
    (Execution.endEnvironment t).Lessens levels m₀ [t] := by
  obtain ⟨value, key⟩ := t
  obtain rfl : value = .controlSequence "end" := ht
  refine (consumes_environmentName _).lessens_bind fun name ts ⟨hlabel, hname⟩ => ?_
  refine (stays_lookup _).lessens_bind fun command => lessens_pushTokens ?_
  rw [List.append_assoc, List.append_assoc]
  refine lighter_ending hlabel hname ?_ key
  split
  · exact .inr rfl
  · exact .inl rfl

theorem finishes_endEnvironment (t : Token) : (Execution.endEnvironment t).Finishes levels :=
  (consumes_environmentName t).finishes.bind fun _ => (stays_lookup _).spends.finishes.bind fun _ =>
    finishes_pushTokens _

/-- Every execution primitive leaves less to be done, if only `\end` itself runs `\end`. -/
theorem lessens_executionPrimitive {t : Token} (ht : t.value.isEndGroup = false)
    {p : ExecutionPrimitive} (hp : p = .endEnvironment → t.value = .controlSequence "end") :
    (Execution.primitive t p).Lessens levels m₀ [t] := by
  by_cases hpushes : p.Pushes
  · cases p with
    | beginEnvironment => exact lessens_beginEnvironment ht
    | endEnvironment => exact lessens_endEnvironment (hp rfl)
    | styled change => exact lessens_styled ht change
    | textColor => exact lessens_textColor ht
    | _ => exact hpushes.elim
  · exact (spends_executionPrimitive t hpushes).lessens (List.cons_ne_nil t [])

/-! ### Processing a token -/

/-- A token that stands for an execution primitive runs it. -/
theorem process_execution_eval {m : Machine} {t : Token} {ref : CommandRef} {p : ExecutionPrimitive}
    (hv : t.value = .command ref) (hc : m.lookup ref = .execution p) :
    Execution.process t m = during .execution t (Execution.primitive t p) m := by
  obtain ⟨value, key⟩ := t
  obtain rfl : value = .command ref := hv
  refine (bind_of_ok (lookup_eval ref m)).trans ?_
  rw [hc]

/-- **Processing a token leaves less to be done**, unless it runs `\end` under another name. -/
theorem ensures_process {m : Machine} {t : Token} (hready : m₀.Ready levels) (htook : m₀.Took [t] m)
    (ht : ¬ m.RenamesEnd t) :
    (Execution.process t).Ensures m fun _ m' => m₀.Continues m' ∧ m₀.Shrinks m' := by
  have ht₀ : [t] ≠ [] := List.cons_ne_nil t []
  unfold Execution.process
  split
  case h_1 => exact (spends_processChar t _ _).lessens ht₀ hready m htook
  case h_2 ref hv =>
    have hnone : t.value.isEndGroup = false := by
      rw [hv]
      rfl
    unfold Ensures
    rw [bind_of_ok (lookup_eval ref m)]
    show Ensures _ m _
    cases hcommand : m.lookup ref with
    | execution p =>
      refine ((lessens_executionPrimitive hnone ?_).during .execution t) hready m htook
      rintro rfl
      refine Classical.byContradiction fun hne => ?_
      refine ht ⟨ref, hv, ?_, hcommand⟩
      rintro rfl
      exact hne hv
    | quantity v => exact (spends_ofVariable t v).lessens ht₀ hready m htook
    | character category c => exact (spends_processChar _ _ _).lessens ht₀ hready m htook
    | expansion p => exact (stays_unexpanded t).spends.lessens ht₀ hready m htook
    | custom mac => exact (stays_unexpanded t).spends.lessens ht₀ hready m htook
    | undefined => exact (stays_undefined t ref).spends.lessens ht₀ hready m htook

/-- A token that runs `\end` under another name does not stop the run for want of steps either. -/
theorem ensures_process_of_renamesEnd {m : Machine} {t : Token} (hready : m.Ready levels)
    (ht : m.RenamesEnd t) : (Execution.process t).Ensures m fun _ m' => m.Continues m' := by
  obtain ⟨ref, hv, -, hcommand⟩ := ht
  unfold Ensures
  rw [process_execution_eval hv hcommand]
  exact ((finishes_endEnvironment t).during .execution t) m hready

end Run

end Gullet

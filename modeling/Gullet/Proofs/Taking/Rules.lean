import Gullet.Execution.Typesetting
import Gullet.Proofs.Evolution.Continuing
import Gullet.Proofs.Run.Ensuring

/-!
# What actions take from the input

An action that expands nothing takes tokens from the front of the input, and may put some of them back.
An action that expands something uses up some of the expansions that are left, and what it takes does not
matter any more. Here are the rules from which it is derived, for every action that puts nothing of its
own in front of the input, that it takes tokens in this sense, and that none of its loops stops for want
of progress.
-/

namespace Gullet

namespace Machine

/-- A machine that can expand with the given number of levels of expansions inside one another. -/
structure Ready (levels : Nat) (m : Machine) : Prop where
  accounted : Input.Accounted m.input.sources
  within : m.expansionDepth ≤ m.config.maxExpansionDepth
  enough : m.config.maxExpansionDepth < levels + m.expansionDepth

/-- Between the machines the given tokens were taken; or something was expanded, and any tokens will
do. -/
structure Took (taken : List Token) (m m' : Machine) : Prop where
  continues : m.Continues m'
  input : m'.expansionsLeft < m.expansionsLeft ∨
    m'.expansionsLeft = m.expansionsLeft ∧ Input.Took taken m.input.sources m'.input.sources

/-- Nothing is left to be read. -/
def AtEnd (m : Machine) : Prop :=
  Input.upcoming m.input.sources = Input.upcoming (Input.beyond m.input.sources)

/-- The machines agree on all that matters for what is read and how it is expanded. -/
structure Resembles (m m' : Machine) : Prop where
  input : m'.input = m.input
  config : m'.config = m.config
  expansions : m'.expansions = m.expansions
  expansionDepth : m'.expansionDepth = m.expansionDepth
  fullExpansions : m'.fullExpansions = m.fullExpansions

variable {levels : Nat} {m m' m'' : Machine} {ts us : List Token}

theorem Ready.of_continues (hm : m.Ready levels) (h : m.Continues m') : m'.Ready levels where
  accounted := h.accounted hm.accounted
  within := by
    rw [h.expansionDepth, h.config]
    exact hm.within
  enough := by
    rw [h.expansionDepth, h.config]
    exact hm.enough

/-- Below the limit there are always enough levels. -/
theorem ready_of_lt (ha : Input.Accounted m.input.sources)
    (hd : m.expansionDepth < m.config.maxExpansionDepth) : m.Ready (m.config.maxExpansionDepth + 1) :=
  ⟨ha, Nat.le_of_lt hd, by omega⟩

namespace Took

theorem refl (m : Machine) : m.Took [] m := ⟨.refl m, .inr ⟨rfl, .refl _⟩⟩

/-- Once something is expanded, any tokens may have been taken. -/
theorem of_lt (h : m.Continues m') (hlt : m'.expansionsLeft < m.expansionsLeft) (ts : List Token) :
    m.Took ts m' := ⟨h, .inl hlt⟩

theorem trans (h : m.Took ts m') (h' : m'.Took us m'') : m.Took (ts ++ us) m'' := by
  refine ⟨h.continues.trans h'.continues, ?_⟩
  have hle := h.continues.expansionsLeft_le
  have hle' := h'.continues.expansionsLeft_le
  rcases h.input with hlt | ⟨heq, htook⟩
  · exact .inl (by omega)
  · rcases h'.input with hlt | ⟨heq', htook'⟩
    · exact .inl (by omega)
    · exact .inr ⟨by omega, htook.trans htook'⟩

/-- Something is expanded after tokens were taken. -/
theorem then_lt (h : m.Took ts m') (hc : m'.Continues m'')
    (hlt : m''.expansionsLeft < m'.expansionsLeft) (us : List Token) : m.Took us m'' :=
  .of_lt (h.continues.trans hc) (Nat.lt_of_lt_of_le hlt h.continues.expansionsLeft_le) us

/-- Tokens that were taken last are put back. -/
theorem pushAll (h : m.Took (ts ++ us) m') :
    m.Took ts { m' with input := m'.input.pushAll us } := by
  refine ⟨h.continues.trans (.of_input _ fun ha => Input.accounted_pushAll ha us), ?_⟩
  rcases h.input with hlt | ⟨heq, htook⟩
  · exact .inl hlt
  · exact .inr ⟨heq, htook.pushAll⟩

/-- To take a token is progress. -/
theorem progress (h : m.Took ts m') (hts : ts ≠ []) : Run.Progress m m' := by
  rcases h.input with hlt | ⟨heq, htook⟩
  · exact .inl hlt
  · have hsize := htook.size
    have hlength : 0 < ts.length := List.length_pos_iff.2 hts
    refine .inr ⟨heq, ?_⟩
    rw [Input.size_eq, Input.size_eq]
    omega

end Took

theorem Resembles.refl (m : Machine) : m.Resembles m := ⟨rfl, rfl, rfl, rfl, rfl⟩

theorem Resembles.trans (h : m.Resembles m') (h' : m'.Resembles m'') : m.Resembles m'' where
  input := h'.input.trans h.input
  config := h'.config.trans h.config
  expansions := h'.expansions.trans h.expansions
  expansionDepth := h'.expansionDepth.trans h.expansionDepth
  fullExpansions := h'.fullExpansions.trans h.fullExpansions

theorem Resembles.took (h : m.Resembles m') : m.Took [] m' := by
  have hleft : m'.expansionsLeft = m.expansionsLeft := by
    unfold Machine.expansionsLeft
    rw [h.config, h.expansions]
  refine ⟨⟨h.config, h.expansionDepth, h.fullExpansions, Nat.le_of_eq h.expansions.symm, fun ha => ?_⟩,
    .inr ⟨hleft, ?_⟩⟩
  · rw [h.input]
    exact ha
  · rw [h.input]
    exact .refl _

end Machine

/-- The stream takes the token that it gives; when it gives none, nothing is left. -/
def Stream.Takes (levels : Nat) (s : Stream) : Prop :=
  ∀ m, m.Ready levels → Run.Ensures s m fun r m' => m.Took r.toList m' ∧ (r = none → m'.AtEnd)

/-- The expander counts an expansion whenever it is given a command. -/
def Expander.Counts (levels : Nat) (x : Expander) : Prop :=
  ∀ m, m.Ready levels → ∀ (ref : CommandRef) (key : SourceKey),
    (x ⟨.command ref, key⟩).Ensures m fun _ m' =>
      m.Continues m' ∧ m'.expansionsLeft < m.expansionsLeft

namespace Run

variable {α β : Type}

/-- The action takes tokens. The condition says which ones, depending on the result. -/
def Consumes (levels : Nat) (a : Run α) (post : α → List Token → Prop) : Prop :=
  ∀ m, m.Ready levels → a.Ensures m fun x m' => ∃ ts, post x ts ∧ m.Took ts m'

/-- When tokens have been taken since the machine `m₀`, the action takes more or puts some back. The
condition says which ones are taken then, depending on the result. -/
def Takes (levels : Nat) (m₀ : Machine) (us : List Token) (a : Run α)
    (post : α → List Token → Prop) : Prop :=
  m₀.Ready levels → ∀ m, m₀.Took us m → a.Ensures m fun x m' => ∃ ts, post x ts ∧ m₀.Took ts m'

/-- The action takes tokens, whichever. -/
def Spends (levels : Nat) (a : Run α) : Prop := a.Consumes levels fun _ _ => True

/-- The action does not touch the input, nor anything else that matters for what is read. -/
def Stays (a : Run α) : Prop := ∀ m, a.Ensures m fun _ m' => m.Resembles m'

/-- The action goes on from the machine, whatever it does with the input. -/
def Finishes (levels : Nat) (a : Run α) : Prop :=
  ∀ m, m.Ready levels → a.Ensures m fun _ m' => m.Continues m'

variable {levels : Nat} {m₀ : Machine} {us : List Token} {a : Run α} {A : α → List Token → Prop}
  {post : α → List Token → Prop}

/-! ### Taking after taking -/

theorem Takes.mono (ha : a.Takes levels m₀ us A) (h : ∀ x ts, A x ts → post x ts) :
    a.Takes levels m₀ us post := by
  intro hready m htook
  refine (ha hready m htook).mono ?_
  rintro x m' ⟨ts, hx, htook'⟩
  exact ⟨ts, h x ts hx, htook'⟩

theorem Takes.bind {f : α → Run β} {post : β → List Token → Prop} (ha : a.Takes levels m₀ us A)
    (hf : ∀ x ts, A x ts → (f x).Takes levels m₀ ts post) : (a >>= f).Takes levels m₀ us post := by
  intro hready m htook
  refine (ha hready m htook).bind ?_
  rintro x m' ⟨ts, hx, htook'⟩
  exact hf x ts hx hready m' htook'

theorem takes_pure {x : α} (h : post x us) : (pure x : Run α).Takes levels m₀ us post :=
  fun _ _ htook => ensures_pure ⟨us, h, htook⟩

theorem takes_fail (f : Fault) : (fail f : Run α).Takes levels m₀ us post :=
  fun _ _ _ => ensures_fail f

theorem Takes.get_bind {f : Machine → Run α} (h : ∀ m, (f m).Takes levels m₀ us post) :
    (get >>= f).Takes levels m₀ us post :=
  fun hready m htook => h m hready m htook

theorem Takes.during (operation : Operation) (t : Token) (ha : a.Takes levels m₀ us post) :
    (Run.during operation t a).Takes levels m₀ us post :=
  fun hready m htook => (ha hready m htook).during operation t

theorem Consumes.takes (ha : a.Consumes levels A) :
    a.Takes levels m₀ us fun x ts => ∃ vs, A x vs ∧ ts = us ++ vs := by
  intro hready m htook
  refine (ha m (hready.of_continues htook.continues)).mono ?_
  rintro x m' ⟨vs, hx, htook'⟩
  exact ⟨us ++ vs, ⟨vs, hx, rfl⟩, htook.trans htook'⟩

/-- First more tokens are taken, and then the rest of the action goes on. -/
theorem Consumes.takes_bind {f : α → Run β} {post : β → List Token → Prop} (ha : a.Consumes levels A)
    (hf : ∀ x vs, A x vs → (f x).Takes levels m₀ (us ++ vs) post) :
    (a >>= f).Takes levels m₀ us post := by
  refine ha.takes.bind ?_
  rintro x ts ⟨vs, hx, rfl⟩
  exact hf x vs hx

theorem Spends.takes (ha : a.Spends levels) : a.Takes levels m₀ us fun _ _ => True :=
  Takes.mono (Consumes.takes ha) fun _ _ _ => trivial

/-- The token that was taken last is put back. -/
theorem takes_pushBack (t : Token) :
    (pushBack t).Takes levels m₀ (us ++ [t]) fun _ ts => ts = us := by
  intro _ m htook
  refine ensures_modify ⟨us, rfl, ?_⟩
  rw [Input.push_eq_pushAll]
  exact htook.pushAll

/-- Tokens are put back one by one, the one that was taken last first. -/
theorem takes_forM_pushBack (taken : List Token) :
    (taken.forM pushBack).Takes levels m₀ (us ++ taken.reverse) fun _ ts => ts = us := by
  induction taken with
  | nil => exact takes_pure (List.append_nil us)
  | cons t rest ih =>
    rw [List.reverse_cons, ← List.append_assoc]
    refine (takes_pushBack t).bind ?_
    rintro _ _ rfl
    exact ih

/-! ### Taking from a machine on -/

theorem consumes_of_takes (h : ∀ m₀, a.Takes levels m₀ [] post) : a.Consumes levels post :=
  fun m hready => h m hready m (.refl m)

theorem Consumes.mono (ha : a.Consumes levels A) (h : ∀ x ts, A x ts → post x ts) :
    a.Consumes levels post := by
  intro m hready
  refine (ha m hready).mono ?_
  rintro x m' ⟨ts, hx, htook⟩
  exact ⟨ts, h x ts hx, htook⟩

theorem Consumes.spends (ha : a.Consumes levels A) : a.Spends levels :=
  ha.mono fun _ _ _ => trivial

theorem consumes_pure {x : α} (h : post x []) : (pure x : Run α).Consumes levels post :=
  consumes_of_takes fun _ => takes_pure h

theorem consumes_throw {h : Halt} (hh : h ≠ .outOfSteps) :
    (throw h : Run α).Consumes levels post := fun _ _ => ensures_throw hh

theorem consumes_fail (f : Fault) : (fail f : Run α).Consumes levels post := fun _ _ => ensures_fail f

theorem Consumes.get_bind {f : Machine → Run α} (h : ∀ m, (f m).Consumes levels post) :
    (get >>= f).Consumes levels post := fun m hready => h m m hready

theorem Consumes.during (operation : Operation) (t : Token) (ha : a.Consumes levels post) :
    (Run.during operation t a).Consumes levels post :=
  fun m hready => (ha m hready).during operation t

theorem Consumes.bind {f : α → Run β} {post : β → List Token → Prop} (ha : a.Consumes levels A)
    (hf : ∀ x ts, A x ts → (f x).Consumes levels fun y us => post y (ts ++ us)) :
    (a >>= f).Consumes levels post := by
  refine consumes_of_takes fun m₀ => ha.takes_bind fun x ts hx => (hf x ts hx).takes.mono ?_
  rintro y _ ⟨vs, hy, rfl⟩
  exact hy

/-- Every round of a loop takes a token or gives an answer. `I` says what has been taken by then. -/
theorem Consumes.loop {step : β → Run (β ⊕ α)} {I : β → List Token → Prop}
    (h : ∀ b us, I b us → (step b).Consumes levels fun r vs =>
      match r with
      | .inl b' => vs ≠ [] ∧ I b' (us ++ vs)
      | .inr x => post x (us ++ vs))
    {b : β} (hi : I b []) : (Run.loop step b).Consumes levels post := by
  intro m₀ hready
  -- the invariant is about all tokens taken since the loop began, whatever the rounds were
  refine Ensures.loop (I := fun b m => ∃ us, I b us ∧ m₀.Took us m) ?_ ⟨[], hi, .refl m₀⟩
  rintro b m ⟨us, hb, htook⟩
  refine (h b us hb m (hready.of_continues htook.continues)).mono ?_
  rintro (b' | x) m' ⟨vs, hr, htook'⟩
  · exact ⟨htook'.progress hr.1, us ++ vs, hr.2, htook.trans htook'⟩
  · exact ⟨us ++ vs, hr, htook.trans htook'⟩

/-! ### Spending -/

theorem spends_pure (x : α) : (pure x : Run α).Spends levels := consumes_pure trivial

theorem spends_fail (f : Fault) : (fail f : Run α).Spends levels := consumes_fail f

theorem spends_throw {h : Halt} (hh : h ≠ .outOfSteps) : (throw h : Run α).Spends levels :=
  consumes_throw hh

theorem Spends.get_bind {f : Machine → Run α} (h : ∀ m, (f m).Spends levels) :
    (get >>= f).Spends levels := Consumes.get_bind h

theorem Spends.bind {f : α → Run β} (ha : a.Spends levels) (hf : ∀ x, (f x).Spends levels) :
    (a >>= f).Spends levels := Consumes.bind ha fun x _ _ => hf x

theorem Spends.map (f : α → β) (ha : a.Spends levels) : (f <$> a).Spends levels := by
  rw [map_eq_pure_bind]
  exact ha.bind fun x => spends_pure (f x)

theorem Spends.during (operation : Operation) (t : Token) (ha : a.Spends levels) :
    (Run.during operation t a).Spends levels := Consumes.during operation t ha

/-- A loop takes tokens if every round that gives no answer takes one. -/
theorem Spends.loop {step : β → Run (β ⊕ α)}
    (h : ∀ b, (step b).Consumes levels fun r ts => r.isLeft = true → ts ≠ []) (b : β) :
    (Run.loop step b).Spends levels := by
  refine Consumes.loop (I := fun _ _ => True) (fun b us _ => (h b).mono ?_) trivial
  rintro (b' | x) ts hr
  · exact ⟨hr rfl, trivial⟩
  · exact trivial

/-- A loop takes tokens if every round begins with taking one. -/
theorem Spends.loop_of_bind {γ : Type} {first : Run γ} {rest : β → γ → Run (β ⊕ α)}
    (hfirst : first.Consumes levels fun _ ts => ts ≠ []) (hrest : ∀ b x, (rest b x).Spends levels)
    (b : β) : (Run.loop (fun b => first >>= rest b) b).Spends levels := by
  refine .loop (fun b => hfirst.bind fun x ts hts => (hrest b x).mono fun r us _ _ => ?_) b
  exact List.append_ne_nil_of_left_ne_nil hts us

/-- An action that calls itself takes tokens if it has taken one before each call. -/
theorem Spends.fix {body : Run α → Run α}
    (h : ∀ m₀ again, (∀ us, us ≠ [] → again.Takes levels m₀ us fun _ _ => True) →
      (body again).Takes levels m₀ [] fun _ _ => True) : (Run.fix body).Spends levels := by
  intro m hready
  refine Ensures.fix (P := Machine.Ready levels) (Q := fun m _ m' => ∃ ts, True ∧ m.Took ts m')
    (fun m again hready hagain => h m again ?_ hready m (.refl m)) hready
  intro us hus _ m' htook
  refine (hagain m' (hready.of_continues htook.continues) (htook.progress hus)).mono ?_
  rintro x m'' ⟨vs, -, htook'⟩
  exact ⟨us ++ vs, trivial, htook.trans htook'⟩

/-! ### Staying -/

theorem stays_pure (x : α) : (pure x : Run α).Stays := fun m => ensures_pure (.refl m)

theorem stays_fail (f : Fault) : (fail f : Run α).Stays := fun _ => ensures_fail f

theorem stays_modify {f : Machine → Machine} (h : ∀ m : Machine, m.Resembles (f m)) :
    (modify f : Run PUnit).Stays := fun m => ensures_modify (h m)

namespace Stays

theorem get_bind {f : Machine → Run α} (h : ∀ m, (f m).Stays) : (get >>= f).Stays :=
  fun m => h m m

theorem bind {f : α → Run β} (ha : a.Stays) (hf : ∀ x, (f x).Stays) : (a >>= f).Stays := by
  intro m
  refine (ha m).bind fun x m' h => ?_
  exact (hf x m').mono fun _ _ h' => h.trans h'

theorem forM {xs : List α} {f : α → Run PUnit} (hf : ∀ x, (f x).Stays) : (xs.forM f).Stays := by
  induction xs with
  | nil => exact stays_pure _
  | cons x rest ih => exact (hf x).bind fun _ => ih

theorem consumes (ha : a.Stays) : a.Consumes levels fun _ ts => ts = [] :=
  fun m _ => (ha m).mono fun _ _ h => ⟨[], rfl, h.took⟩

theorem spends (ha : a.Stays) : a.Spends levels := ha.consumes.spends

theorem consumes_bind {f : α → Run β} {post : β → List Token → Prop} (ha : a.Stays)
    (hf : ∀ x, (f x).Consumes levels post) : (a >>= f).Consumes levels post := by
  refine ha.consumes.bind ?_
  rintro x _ rfl
  exact hf x

theorem takes_bind {f : α → Run β} {post : β → List Token → Prop} (ha : a.Stays)
    (hf : ∀ x, (f x).Takes levels m₀ us post) : (a >>= f).Takes levels m₀ us post := by
  refine ha.consumes.takes_bind ?_
  rintro x _ rfl
  rw [List.append_nil]
  exact hf x

end Stays

/-! ### Finishing -/

theorem Consumes.finishes (ha : a.Consumes levels A) : a.Finishes levels := by
  intro m hready
  refine (ha m hready).mono ?_
  rintro x m' ⟨ts, -, htook⟩
  exact htook.continues

theorem Finishes.bind {f : α → Run β} (ha : a.Finishes levels) (hf : ∀ x, (f x).Finishes levels) :
    (a >>= f).Finishes levels := by
  intro m hready
  refine (ha m hready).bind fun x m' hc => ?_
  exact (hf x m' (hready.of_continues hc)).mono fun _ _ hc' => hc.trans hc'

theorem Finishes.get_bind {f : Machine → Run α} (h : ∀ m, (f m).Finishes levels) :
    (get >>= f).Finishes levels := fun m hready => h m m hready

theorem Finishes.during (operation : Operation) (t : Token) (ha : a.Finishes levels) :
    (Run.during operation t a).Finishes levels :=
  fun m hready => (ha m hready).during operation t

theorem finishes_modify {f : Machine → Machine} (h : ∀ m : Machine, m.Evolves (f m)) :
    (modify f : Run PUnit).Finishes levels :=
  fun m _ => ensures_modify (h m).continues

end Run

end Gullet

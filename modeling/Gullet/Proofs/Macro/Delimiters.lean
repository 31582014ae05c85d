import Gullet.Execution.Definition
import Gullet.Proofs.Run.Looping

/-!
# The delimiters of macros

The delimiter of a parameter is written in front of the brace that opens the replacement text, and may
take in this brace. So no brace stands in it but perhaps that one, at its end. It matters for the arguments
of a macro, since a delimiter is looked for outside of groups: it must not itself lead out of one. All this comes
from what a single round of reading a parameter text can add to it.
-/

namespace Gullet

/-- A token that is no brace and no parameter token. -/
structure Token.IsOrdinary (t : Token) : Prop where
  noBegin : t.value.isBeginGroup = false
  noEnd : t.value.isEndGroup = false
  noParameter : ∀ c, t.value ≠ .char .parameter c

/-- The values can be a delimiter: none of them closes a group, and only the last may open one. -/
structure TokenValue.IsDelimiter (vs : List TokenValue) : Prop where
  closes : ∀ v ∈ vs, v.isEndGroup = false
  opens : ∀ v ∈ vs.dropLast, v.isBeginGroup = false

/-- If the parameter is delimited, its delimiter is one that can be written, and is not empty. -/
def Parameter.WellDelimited : Parameter → Prop
  | .undelimited => True
  | .delimited delimiter => ∃ vs, vs ≠ [] ∧ TokenValue.IsDelimiter vs ∧ delimiter = .ofList vs

/-- All parameters have delimiters that can be written. -/
def Macro.WellDelimited (m : Macro) : Prop := ∀ p ∈ m.parameters, p.WellDelimited

/-- If the command is a macro, it is well delimited. -/
def Command.WellDelimited : Command → Prop
  | .custom m => m.WellDelimited
  | _ => True

/-- The macro that the command is, if it is one. -/
def Command.macro? : Command → Option Macro
  | .custom m => some m
  | _ => none

namespace Macro

variable {m : Macro} {count : Nat}

theorem wellDelimited_of_replicate (h : m.parameters = List.replicate count .undelimited) :
    m.WellDelimited := by
  intro p hp
  rw [h] at hp
  rw [List.eq_of_mem_replicate hp]
  trivial

/-- The first parameter of a macro with an optional argument is delimited by a bracket. -/
theorem wellDelimited_of_bracket
    (h : m.parameters =
      .delimited (.ofList [.char .other ']']) :: List.replicate count .undelimited) :
    m.WellDelimited := by
  intro p hp
  rw [h] at hp
  rcases List.mem_cons.1 hp with rfl | hp
  · exact ⟨_, List.cons_ne_nil _ _, ⟨by decide, by decide⟩, rfl⟩
  · rw [List.eq_of_mem_replicate hp]
    trivial

end Macro

namespace Definition

/-- One round of reading the part of a definition before the replacement text. -/
def parameterRound (p : ParameterText) : Run (ParameterText ⊕ (ParameterText × Token × Bool)) := do
  let t ← Stream.raw.nextOr .parameterText
  match t.value with
  | .char .beginGroup _ => return .inr (p, t, false)
  | .char .endGroup _ => Run.fail (.endGroupInParameterText t)
  | .char .parameter _ => do
    let next ← Stream.raw.nextOr .parameterNumber
    match next.value with
    | .char .beginGroup _ => return .inr (p.add next, next, true)
    | .command _ => Run.fail (.controlSequenceAfterParameter next)
    | .char _ c =>
      match parameterIndex? c with
      | none => Run.fail (.characterAfterParameter next)
      | some index =>
        let already := p.delimiters.length
        if index = already then return .inl p.addParameter
        else Run.fail (.parameterOutOfOrder next (index + 1) already)
  | _ => return .inl (p.add t)

theorem parameterText_eq : parameterText = Run.loop parameterRound {} := rfl

/-- The index of a parameter is one of nine. -/
theorem parameterIndex?_lt {c : Char} {index : Nat} (h : parameterIndex? c = some index) : index < 9 := by
  unfold parameterIndex? at h
  split at h
  · rename_i hdigit
    cases h
    simp only [Bool.and_eq_true, decide_eq_true_eq] at hdigit
    have hmost : c.toNat ≤ '9'.toNat := hdigit.2
    have hone : '1'.toNat = 49 := rfl
    have hnine : '9'.toNat = 57 := rfl
    omega
  · cases h

/-- What a round makes of a parameter text: it adds a token that is neither a brace nor a parameter token,
or one of nine parameters, or it ends at a brace, which may be taken into the text. -/
theorem parameterRound_cases {p : ParameterText} {m m' : Machine}
    {r : ParameterText ⊕ (ParameterText × Token × Bool)} (h : parameterRound p m = (.ok r, m')) :
    (∃ t, t.IsOrdinary ∧ r = .inl (p.add t)) ∨
      (p.delimiters.length < 9 ∧ r = .inl p.addParameter) ∨
      ∃ opener, opener.value.isBeginGroup = true ∧
        (r = .inr (p, opener, false) ∨ r = .inr (p.add opener, opener, true)) := by
  obtain ⟨t, m₁, -, h⟩ := Run.exists_of_bind_eq_ok h
  dsimp only at h
  cases ht : t.value with
  | command ref =>
    rw [ht] at h
    cases h
    exact .inl ⟨t, ⟨by rw [ht]; rfl, by rw [ht]; rfl, by simp [ht]⟩, rfl⟩
  | char category c =>
    rw [ht] at h
    cases category with
    | beginGroup =>
      cases h
      exact .inr (.inr ⟨t, by rw [ht]; rfl, .inl rfl⟩)
    | endGroup => cases h
    | parameter =>
      obtain ⟨next, m₂, -, h⟩ := Run.exists_of_bind_eq_ok h
      cases hnext : next.value with
      | command ref =>
        rw [hnext] at h
        cases h
      | char category c =>
        rw [hnext] at h
        by_cases hcategory : category = .beginGroup
        · subst hcategory
          cases h
          exact .inr (.inr ⟨next, by rw [hnext]; rfl, .inr rfl⟩)
        · cases hindex : parameterIndex? c with
          | none =>
            simp only [hindex] at h
            cases h
          | some index =>
            simp only [hindex] at h
            split at h
            · rename_i hnumber
              cases h
              exact .inr (.inl ⟨hnumber ▸ parameterIndex?_lt hindex, rfl⟩)
            · cases h
    | _ =>
      cases h
      exact .inl ⟨t, ⟨by rw [ht]; rfl, by rw [ht]; rfl, by simp [ht]⟩, rfl⟩

end Definition

end Gullet

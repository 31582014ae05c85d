import Mathlib.Data.List.Chain
import Gullet.Proofs.Macro.Delimiters

/-!
# Well-formed macros

Calls rely on how macros are built: that a replacement text refers to no parameter that the macro does not
have, that no delimiter is empty, and that the tokens which have to be met in a call could stand in front
of a replacement text. And macros are compared piece by piece, so a replacement text must be cut into
pieces in one way only. All of this holds of whatever macro the commands for definitions build.
-/

namespace Gullet

/-! ### Replacement texts -/

namespace Replacement

/-- The pieces can stand next to each other: they are not both runs of tokens. -/
def Apart : Replacement → Replacement → Prop
  | .tokens _, .tokens _ => False
  | _, _ => True

/-- The runs of tokens are as long as they can be, and none is empty. -/
structure IsMerged (r : List Replacement) : Prop where
  nonempty : .tokens [] ∉ r
  apart : r.IsChain Apart

variable {r : List Replacement} {t : Token} {ts : List Token} {count index : Nat}

theorem isMerged_nil : IsMerged [] := ⟨List.not_mem_nil, .nil⟩

theorem isMerged_parameter (h : IsMerged r) (index : Nat) : IsMerged (.parameter index :: r) where
  nonempty := by simp [h.nonempty]
  apart := List.isChain_cons.2 ⟨fun _ _ => trivial, h.apart⟩

/-- A token in front of a run becomes a part of it. -/
theorem isMerged_consToken (h : IsMerged r) (t : Token) : IsMerged (consToken t r) := by
  unfold consToken
  split
  · rename_i ts rest
    obtain ⟨hhead, hrest⟩ := List.isChain_cons.1 h.apart
    refine ⟨?_, List.isChain_cons.2 ⟨fun piece hpiece => ?_, hrest⟩⟩
    · have hnonempty := h.nonempty
      simp only [List.mem_cons, not_or] at hnonempty ⊢
      exact ⟨by simp, hnonempty.2⟩
    · have happart := hhead piece hpiece
      cases piece with
      | tokens us => exact happart
      | parameter index => trivial
  · rename_i hrun
    refine ⟨by simp [h.nonempty], List.isChain_cons.2 ⟨fun piece hpiece => ?_, h.apart⟩⟩
    cases piece with
    | tokens us =>
      obtain ⟨rest, hrest⟩ := List.head?_eq_some_iff.1 hpiece
      exact absurd hrest (hrun us rest)
    | parameter index => trivial

/-- A token after a run becomes a part of it. -/
theorem isMerged_concatToken (h : IsMerged r) (t : Token) : IsMerged (concatToken r t) := by
  unfold concatToken
  split
  · rename_i ts hlast
    obtain ⟨init, rfl⟩ := List.getLast?_eq_some_iff.1 hlast
    obtain ⟨hinit, -, hhead⟩ := List.isChain_append.1 h.apart
    have hnonempty := h.nonempty
    rw [List.dropLast_concat]
    refine ⟨?_, List.isChain_append.2 ⟨hinit, .singleton _, fun before hbefore piece hpiece => ?_⟩⟩
    · simp only [List.mem_append, not_or] at hnonempty ⊢
      exact ⟨hnonempty.1, by simp⟩
    · obtain rfl := Option.some.inj hpiece
      have happart := hhead before hbefore (.tokens ts) rfl
      cases before with
      | tokens us => exact happart
      | parameter index => trivial
  · rename_i hrun
    refine ⟨by simp [h.nonempty], List.isChain_append.2 ⟨h.apart, .singleton _, ?_⟩⟩
    intro before hbefore piece hpiece
    cases before with
    | tokens us => exact absurd hbefore (hrun us)
    | parameter index => trivial

theorem parameter_mem_consToken : .parameter index ∈ consToken t r ↔ .parameter index ∈ r := by
  unfold consToken
  split
  · simp
  · simp

theorem parameter_mem_concatToken : .parameter index ∈ concatToken r t ↔ .parameter index ∈ r := by
  unfold concatToken
  split
  · rename_i ts hlast
    obtain ⟨init, rfl⟩ := List.getLast?_eq_some_iff.1 hlast
    simp
  · simp

theorem parameterOf?_lt (h : parameterOf? count t = some index) : index < count := by
  unfold parameterOf? at h
  split at h
  · exact decide_eq_true_iff.1 (Option.filter_eq_some_iff.1 h).2
  · cases h

/-- The replacement text is merged, and refers to none but the first `count` parameters. -/
structure WellFormed (count : Nat) (r : List Replacement) : Prop where
  merged : IsMerged r
  refers : ∀ index, .parameter index ∈ r → index < count

theorem wellFormed_nil : WellFormed count [] := ⟨isMerged_nil, fun _ h => absurd h List.not_mem_nil⟩

theorem wellFormed_tokens (hts : ts ≠ []) : WellFormed count [.tokens ts] where
  merged := ⟨by simp [hts.symm], .singleton _⟩
  refers := by simp

theorem WellFormed.consToken (h : WellFormed count r) (t : Token) : WellFormed count (consToken t r) :=
  ⟨isMerged_consToken h.merged t, fun index hindex => h.refers index (parameter_mem_consToken.1 hindex)⟩

theorem WellFormed.concatToken (h : WellFormed count r) (t : Token) :
    WellFormed count (concatToken r t) :=
  ⟨isMerged_concatToken h.merged t, fun index hindex => h.refers index (parameter_mem_concatToken.1 hindex)⟩

theorem WellFormed.parameter (h : WellFormed count r) (hindex : index < count) :
    WellFormed count (.parameter index :: r) := by
  refine ⟨isMerged_parameter h.merged index, fun index' hmem => ?_⟩
  rcases List.mem_cons.1 hmem with heq | hmem
  · cases heq
    exact hindex
  · exact h.refers index' hmem

theorem WellFormed.mono {count' : Nat} (h : WellFormed count r) (hcount : count ≤ count') :
    WellFormed count' r :=
  ⟨h.merged, fun index hindex => Nat.lt_of_lt_of_le (h.refers index hindex) hcount⟩

theorem exists_of_ofTokens_map {f : List Replacement → List Replacement}
    (h : (do return f (← ofTokens count ts)) = .ok r) : ∃ r', ofTokens count ts = .ok r' ∧ r = f r' := by
  cases hts : ofTokens count ts with
  | error fault =>
    rw [hts] at h
    cases h
  | ok r' =>
    rw [hts] at h
    cases h
    exact ⟨r', rfl, rfl⟩

/-- What is made of tokens is well formed. -/
theorem wellFormed_of_ofTokens (h : ofTokens count ts = .ok r) : WellFormed count r := by
  fun_induction ofTokens count ts generalizing r with
  | case1 =>
    cases h
    exact wellFormed_nil
  | case2 => cases h
  | case3 c key next rest c' hnext ih =>
    obtain ⟨r', hr', rfl⟩ := exists_of_ofTokens_map h
    exact (ih hr').consToken next
  | case4 c key next rest index hindex hnext ih =>
    obtain ⟨r', hr', rfl⟩ := exists_of_ofTokens_map h
    exact (ih hr').parameter (parameterOf?_lt hindex)
  | case5 => cases h
  | case6 t rest hmark ih =>
    obtain ⟨r', hr', rfl⟩ := exists_of_ofTokens_map h
    exact (ih hr').consToken t

end Replacement

/-! ### Parameter texts -/

/-- The parameter text of a macro, with `none` in the place of each parameter. -/
def Macro.pattern (m : Macro) : List (Option TokenValue) :=
  m.lead.map (fun t => some t.value) ++
    m.parameters.flatMap fun p => none :: (p.delimiter?.getD []).map some

/-- The macro is as a definition can make it. -/
structure Macro.WellFormed (m : Macro) : Prop where
  /-- There are as many digits for parameters. -/
  length_le : m.parameters.length ≤ 9
  /-- The replacement text refers to no other parameters, and its runs of tokens are as long as they can
  be. -/
  replacement : Replacement.WellFormed m.parameters.length m.replacement
  /-- No delimiter is empty. -/
  wellDelimited : m.WellDelimited
  /-- In the parameter text no group is closed. -/
  closes : ∀ v, some v ∈ m.pattern → v.isEndGroup = false
  /-- No parameter token is left in it. -/
  marks : ∀ v, some v ∈ m.pattern → ∀ c, v ≠ .char .parameter c
  /-- A group is opened by its last token only. -/
  opens : ∀ v, some v ∈ m.pattern.dropLast → v.isBeginGroup = false

/-- If the command is a macro, it is well formed. -/
def Command.WellFormed : Command → Prop
  | .custom m => m.WellFormed
  | _ => True

theorem Command.wellFormed_of_macro? {c : Command} (h : c.macro? = none) : c.WellFormed := by
  cases c with
  | custom m => cases h
  | _ => trivial

theorem Command.WellFormed.wellDelimited {c : Command} (h : c.WellFormed) : c.WellDelimited := by
  cases c with
  | custom m => exact Macro.WellFormed.wellDelimited h
  | _ => trivial

namespace ParameterText

/-- The tokens and, for each parameter, `none`. -/
def pattern (p : ParameterText) : List (Option TokenValue) :=
  p.lead.map (fun t => some t.value) ++ p.delimiters.flatMap fun d => none :: d.map fun t => some t.value

variable {p : ParameterText} {t : Token} {v : TokenValue}

theorem pattern_add : (p.add t).pattern = p.pattern ++ [some t.value] := by
  unfold add
  split
  · rename_i hnone
    have hnil := List.getLast?_eq_none_iff.1 hnone
    simp [pattern, hnil]
  · rename_i d hlast
    obtain ⟨init, hinit⟩ := List.getLast?_eq_some_iff.1 hlast
    simp [pattern, hinit]

theorem pattern_addParameter : p.addParameter.pattern = p.pattern ++ [none] := by
  simp [pattern, addParameter]

theorem length_delimiters_add : (p.add t).delimiters.length = p.delimiters.length := by
  unfold add
  split
  · rfl
  · rename_i d hlast
    obtain ⟨init, hinit⟩ := List.getLast?_eq_some_iff.1 hlast
    simp [hinit]

/-- A macro with this parameter text. -/
theorem pattern_eq {m : Macro} (hlead : m.lead = p.lead) (hparameters : m.parameters = p.parameters) :
    m.pattern = p.pattern := by
  unfold Macro.pattern pattern
  rw [hlead, hparameters, parameters, List.flatMap_map]
  congr 1
  refine List.flatMap_congr fun d _ => ?_
  cases d with
  | nil => rfl
  | cons t d => simp [Parameter.delimiter?]

/-- So far the parameter text has at most nine parameters, and no braces and parameter tokens. -/
structure Ordinary (p : ParameterText) : Prop where
  length_le : p.delimiters.length ≤ 9
  begins : ∀ v, some v ∈ p.pattern → v.isBeginGroup = false
  closes : ∀ v, some v ∈ p.pattern → v.isEndGroup = false
  marks : ∀ v, some v ∈ p.pattern → ∀ c, v ≠ .char .parameter c

/-- The parameter text can stand in front of a replacement text: now its last token may open a group. -/
structure WellFormed (p : ParameterText) : Prop where
  length_le : p.delimiters.length ≤ 9
  closes : ∀ v, some v ∈ p.pattern → v.isEndGroup = false
  marks : ∀ v, some v ∈ p.pattern → ∀ c, v ≠ .char .parameter c
  opens : ∀ v, some v ∈ p.pattern.dropLast → v.isBeginGroup = false

theorem ordinary_empty : Ordinary {} where
  length_le := Nat.zero_le 9
  begins _ h := absurd h List.not_mem_nil
  closes _ h := absurd h List.not_mem_nil
  marks _ h := absurd h List.not_mem_nil

theorem mem_pattern_add (h : some v ∈ (p.add t).pattern) : some v ∈ p.pattern ∨ v = t.value := by
  rw [pattern_add, List.mem_append, List.mem_singleton] at h
  exact h.imp_right Option.some.inj

theorem Ordinary.add (h : p.Ordinary) (ht : t.IsOrdinary) : (p.add t).Ordinary where
  length_le := length_delimiters_add.trans_le h.length_le
  begins v hv := (mem_pattern_add hv).elim (h.begins v) fun heq => heq ▸ ht.noBegin
  closes v hv := (mem_pattern_add hv).elim (h.closes v) fun heq => heq ▸ ht.noEnd
  marks v hv := (mem_pattern_add hv).elim (h.marks v) fun heq => heq ▸ ht.noParameter

theorem Ordinary.addParameter (h : p.Ordinary) (hcount : p.delimiters.length < 9) :
    p.addParameter.Ordinary := by
  have hmem {v : TokenValue} (hv : some v ∈ p.addParameter.pattern) : some v ∈ p.pattern := by
    simpa [pattern_addParameter] using hv
  refine ⟨?_, fun v hv => h.begins v (hmem hv), fun v hv => h.closes v (hmem hv),
    fun v hv => h.marks v (hmem hv)⟩
  rw [ParameterText.addParameter, List.length_append]
  exact hcount

theorem Ordinary.wellFormed (h : p.Ordinary) : p.WellFormed where
  length_le := h.length_le
  closes := h.closes
  marks := h.marks
  opens v hv := h.begins v (List.dropLast_subset _ hv)

/-- The brace that opens the replacement text can be taken into the parameter text. -/
theorem Ordinary.add_brace (h : p.Ordinary) (ho : t.value.isBeginGroup = true) :
    (p.add t).WellFormed where
  length_le := length_delimiters_add.trans_le h.length_le
  closes v hv := (mem_pattern_add hv).elim (h.closes v)
    fun heq => heq ▸ (TokenValue.category_of_isBeginGroup ho).1
  marks v hv c := (mem_pattern_add hv).elim (fun hmem => h.marks v hmem c) fun heq hc => by
    rw [← heq, hc] at ho
    cases ho
  opens v hv := by
    rw [pattern_add, List.dropLast_concat] at hv
    exact h.begins v hv

/-- A delimiter is a part of the parameter text. -/
theorem pattern_of_mem {d : List Token} (hd : d ∈ p.delimiters) :
    ∃ before after, p.pattern = before ++ (d.map fun t => some t.value) ++ after := by
  obtain ⟨left, right, hsplit⟩ := List.append_of_mem hd
  refine ⟨p.lead.map (fun t => some t.value) ++
    (left.flatMap fun d => none :: d.map fun t => some t.value) ++ [none],
    right.flatMap fun d => none :: d.map fun t => some t.value, ?_⟩
  simp [pattern, hsplit]

theorem WellFormed.isDelimiter (h : p.WellFormed) {d : List Token} (hd : d ∈ p.delimiters) :
    TokenValue.IsDelimiter (d.map Token.value) := by
  obtain ⟨before, after, hpattern⟩ := pattern_of_mem hd
  refine ⟨fun v hv => h.closes v ?_, fun v hv => h.opens v ?_⟩
  · obtain ⟨t, ht, rfl⟩ := List.mem_map.1 hv
    rw [hpattern]
    exact List.mem_append_left _ (List.mem_append_right _ (List.mem_map.2 ⟨t, ht, rfl⟩))
  · rcases List.eq_nil_or_concat' d with rfl | ⟨init, last, rfl⟩
    · cases hv
    · rw [List.map_append, List.map_singleton, List.dropLast_concat] at hv
      obtain ⟨t, ht, rfl⟩ := List.mem_map.1 hv
      have hsplit : p.pattern = before ++ (init.map fun t => some t.value) ++ some last.value :: after := by
        simp [hpattern]
      rw [hsplit, List.dropLast_append_of_ne_nil (List.cons_ne_nil _ _)]
      exact List.mem_append_left _ (List.mem_append_right _ (List.mem_map.2 ⟨t, ht, rfl⟩))

/-- A macro with this parameter text is well formed if its replacement text is. -/
theorem WellFormed.macro (h : p.WellFormed) {m : Macro} (hlead : m.lead = p.lead)
    (hparameters : m.parameters = p.parameters)
    (hreplacement : Replacement.WellFormed p.delimiters.length m.replacement) : m.WellFormed := by
  have hpattern := pattern_eq hlead hparameters
  have hlength : m.parameters.length = p.delimiters.length := by
    rw [hparameters, parameters, List.length_map]
  refine ⟨hlength ▸ h.length_le, hlength ▸ hreplacement, fun q hq => ?_, hpattern ▸ h.closes,
    hpattern ▸ h.marks, hpattern ▸ h.opens⟩
  rw [hparameters] at hq
  obtain ⟨d, hd, rfl⟩ := List.mem_map.1 hq
  cases d with
  | nil => trivial
  | cons t ts => exact ⟨_, List.cons_ne_nil _ _, h.isDelimiter hd, rfl⟩

end ParameterText

namespace Definition

/-- What a round makes of a parameter text. -/
theorem ordinary_parameterRound {p : ParameterText} {m m' : Machine}
    {r : ParameterText ⊕ (ParameterText × Token × Bool)} (hp : p.Ordinary)
    (h : parameterRound p m = (.ok r, m')) :
    Sum.elim ParameterText.Ordinary (fun r => r.1.WellFormed) r := by
  rcases parameterRound_cases h with ⟨t, ht, rfl⟩ | ⟨hcount, rfl⟩ | ⟨opener, ho, rfl | rfl⟩
  · exact hp.add ht
  · exact hp.addParameter hcount
  · exact hp.wellFormed
  · exact hp.add_brace ho

/-- **Every parameter text that is read can stand in front of a replacement text.** -/
theorem wellFormed_of_parameterText {p : ParameterText} {opener : Token} {closing : Bool}
    (h : parameterText.MayGive (p, opener, closing)) : p.WellFormed := by
  obtain ⟨m, m', h⟩ := h
  rw [parameterText_eq] at h
  refine Run.of_loop_eq_ok (fun p _ => p.Ordinary) (fun r _ => r.1.WellFormed) (fun hp hround => ?_)
    ParameterText.ordinary_empty h
  have hnext := ordinary_parameterRound hp hround
  rename_i r _ _
  cases r with
  | inl p => exact hnext
  | inr r => exact hnext

theorem ok_of_orFail {α : Type} {r : Except Fault α} {x : α} (h : (orFail r).MayGive x) : r = .ok x := by
  obtain ⟨m, m', h⟩ := h
  cases r with
  | ok y =>
    cases h
    rfl
  | error fault => cases h

/-- No more than nine parameters can be asked for. -/
theorem parameterCount?_le {s : String} {count : Nat} (h : parameterCount? s = some count) : count ≤ 9 := by
  unfold parameterCount? at h
  extract_lets chars digits at h
  split at h
  · cases h
  · exact of_decide_eq_true (Option.filter_eq_some_iff.1 h).2

theorem count_le_of_signature {t : Token} {s : Signature} (h : (signature t).MayGive s) : s.count ≤ 9 := by
  obtain ⟨m, m', h⟩ := h
  obtain ⟨ts?, m₁, -, h⟩ := Run.exists_of_bind_eq_ok h
  cases ts? with
  | none =>
    cases h
    exact Nat.zero_le 9
  | some ts =>
    dsimp only at h
    cases hcount : parameterCount? (Token.write ts) with
    | none =>
      rw [hcount] at h
      cases h
    | some count =>
      rw [hcount] at h
      cases count with
      | zero =>
        cases h
        exact Nat.zero_le 9
      | succ count =>
        obtain ⟨default, m₂, -, h⟩ := Run.exists_of_bind_eq_ok h
        cases h
        exact parameterCount?_le hcount

end Definition

/-! ### Macros with counted parameters -/

namespace Macro

variable {m : Macro} {count : Nat}

/-- Nothing can go wrong with a parameter text in which brackets at most have to be met. -/
theorem wellFormed_of_other (hlength : m.parameters.length ≤ 9)
    (hreplacement : Replacement.WellFormed m.parameters.length m.replacement)
    (hdelimited : m.WellDelimited) (hother : ∀ v, some v ∈ m.pattern → ∃ c, v = .char .other c) :
    m.WellFormed where
  length_le := hlength
  replacement := hreplacement
  wellDelimited := hdelimited
  closes v hv := by
    obtain ⟨c, rfl⟩ := hother v hv
    rfl
  marks v hv c' := by
    obtain ⟨c, rfl⟩ := hother v hv
    simp
  opens v hv := by
    obtain ⟨c, rfl⟩ := hother v (List.dropLast_subset _ hv)
    rfl

/-- Undelimited parameters leave nothing to be met. -/
theorem not_mem_pattern_replicate (v : TokenValue) :
    some v ∉ (List.replicate count Parameter.undelimited).flatMap
      fun p => none :: (p.delimiter?.getD []).map some := by
  intro h
  obtain ⟨p, hp, hv⟩ := List.mem_flatMap.1 h
  rw [List.eq_of_mem_replicate hp] at hv
  simp [Parameter.delimiter?] at hv

/-- A macro with undelimited parameters. -/
theorem wellFormed_of_replicate (hlead : m.lead = [])
    (hparameters : m.parameters = List.replicate count .undelimited) (hcount : count ≤ 9)
    (hreplacement : Replacement.WellFormed count m.replacement) : m.WellFormed := by
  have hlength : m.parameters.length = count := by rw [hparameters, List.length_replicate]
  refine wellFormed_of_other (hlength ▸ hcount) (hlength ▸ hreplacement)
    (wellDelimited_of_replicate hparameters) fun v hv => ?_
  rw [pattern, hlead, hparameters] at hv
  exact absurd hv (not_mem_pattern_replicate v)

/-- A macro with a first argument in brackets. -/
theorem wellFormed_of_bracket {key : SourceKey} (hlead : m.lead = [.char .other '[' key])
    (hparameters : m.parameters =
      .delimited (.ofList [.char .other ']']) :: List.replicate (count - 1) .undelimited)
    (hcount : count ≤ 9) (hreplacement : Replacement.WellFormed count m.replacement) : m.WellFormed := by
  have hlength : m.parameters.length = count - 1 + 1 := by
    rw [hparameters, List.length_cons, List.length_replicate]
  refine wellFormed_of_other (by omega) (hreplacement.mono (by omega))
    (wellDelimited_of_bracket hparameters) fun v hv => ?_
  rw [pattern, hlead, hparameters, List.flatMap_cons, List.mem_append, List.mem_append] at hv
  rcases hv with hv | hv | hv
  · cases List.mem_singleton.1 hv
    exact ⟨'[', rfl⟩
  · have hv : v = .char .other ']' := by simpa [Parameter.delimiter?] using hv
    exact ⟨']', hv⟩
  · exact absurd hv (not_mem_pattern_replicate v)

/-- A macro that stands for tokens. -/
theorem wellFormed_of_tokens {ts : List Token} (hlead : m.lead = []) (hparameters : m.parameters = [])
    (hreplacement : m.replacement = [.tokens ts]) (hts : ts ≠ []) : m.WellFormed :=
  @wellFormed_of_replicate _ 0 hlead hparameters (Nat.zero_le 9)
    (hreplacement ▸ Replacement.wellFormed_tokens hts)

end Macro

end Gullet

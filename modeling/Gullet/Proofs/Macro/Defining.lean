import Gullet.Proofs.Macro.Delimiters
import Gullet.Proofs.Macro.Text
import Gullet.Proofs.Scopes.Vocabulary

/-!
# Reading definitions

A definition that is written as it should be binds its name to the macro that it describes.
-/

namespace Gullet

variable {b : Bindings} {t : Token} {ts : List Token} {m m' m₁ : Machine}

/-! ### Replacement texts -/

namespace Replacement

@[simp] theorem fill_consToken (t : Token) (r : List Replacement) (arguments : List (List Token)) :
    Macro.fill (consToken t r) arguments = t :: Macro.fill r arguments := by
  unfold consToken
  split
  · rfl
  · rfl

theorem ofTokens_token (ht : ∀ c, t.value ≠ .char .parameter c) (count : Nat) (rest : List Token) :
    ofTokens count (t :: rest) = (consToken t ·) <$> ofTokens count rest := by
  obtain ⟨value, key⟩ := t
  cases value with
  | command ref => rfl
  | char category c =>
    cases category with
    | parameter => exact absurd rfl (ht c)
    | _ => rfl

theorem ofTokens_doubled {mark kept : Token} (hmark : ∃ c, mark.value = .char .parameter c)
    (hkept : ∃ c, kept.value = .char .parameter c) (count : Nat) (rest : List Token) :
    ofTokens count (mark :: kept :: rest) = (consToken kept ·) <$> ofTokens count rest := by
  obtain ⟨value, key⟩ := mark
  obtain ⟨value', key'⟩ := kept
  obtain ⟨c, rfl⟩ := hmark
  obtain ⟨c', rfl⟩ := hkept
  rfl

theorem ofTokens_parameter {mark digit : Token} {category : CharCategory} {c : Char}
    {index count : Nat} (hmark : ∃ c, mark.value = .char .parameter c)
    (hdigit : digit.value = .char category c) (hcategory : category ≠ .parameter)
    (hindex : parameterIndex? c = some index) (hcount : index < count) (rest : List Token) :
    ofTokens count (mark :: digit :: rest) = (.parameter index :: ·) <$> ofTokens count rest := by
  obtain ⟨value, key⟩ := mark
  obtain ⟨value', key'⟩ := digit
  obtain ⟨c', rfl⟩ := hmark
  obtain rfl : value' = .char category c := hdigit
  have hparameter : parameterOf? count ⟨.char category c, key'⟩ = some index := by
    unfold parameterOf?
    dsimp only
    rw [hindex]
    simp [hcount]
  rw [ofTokens]
  cases category with
  | parameter => exact absurd rfl hcategory
  | _ =>
    dsimp only
    rw [hparameter]
    rfl

/-- A replacement text that refers to existing parameters is accepted, and stands for what it says. -/
theorem ofTokens_body {count : Nat} {body : List BodyItem}
    (hbody : ∀ item ∈ body, item.WellFormed count) :
    ∃ r, ofTokens count (body.flatMap BodyItem.tokens) = .ok r ∧
      ∀ arguments, Macro.fill r arguments = body.flatMap (BodyItem.filled arguments) := by
  induction body with
  | nil => exact ⟨[], rfl, fun _ => rfl⟩
  | cons item body ih =>
    obtain ⟨hitem, hrest⟩ := List.forall_mem_cons.1 hbody
    obtain ⟨r, hr, hfill⟩ := ih hrest
    rw [List.flatMap_cons]
    cases item with
    | token t =>
      refine ⟨consToken t r, ?_, fun arguments => ?_⟩
      · show ofTokens count (t :: body.flatMap BodyItem.tokens) = _
        rw [ofTokens_token hitem, hr]
        rfl
      · rw [fill_consToken, hfill]
        rfl
    | parameter mark digit index =>
      obtain ⟨hmark, ⟨category, c, hdigit, hcategory, hindex⟩, hcount⟩ := hitem
      refine ⟨.parameter index :: r, ?_, fun arguments => ?_⟩
      · show ofTokens count (mark :: digit :: body.flatMap BodyItem.tokens) = _
        rw [ofTokens_parameter hmark hdigit hcategory hindex hcount, hr]
        rfl
      · rw [Macro.fill_parameter, hfill]
        rfl
    | doubled mark kept =>
      obtain ⟨hmark, hkept⟩ := hitem
      refine ⟨consToken kept r, ?_, fun arguments => ?_⟩
      · show ofTokens count (mark :: kept :: body.flatMap BodyItem.tokens) = _
        rw [ofTokens_doubled hmark hkept, hr]
        rfl
      · rw [fill_consToken, hfill]
        rfl

end Replacement

/-! ### Parameters -/

/-- The parameter that is read. -/
def Slot.parameter (s : Slot) : Parameter :=
  match s.delimiterValues with
  | [] => .undelimited
  | d => .delimited (.ofList d)

namespace Slot

variable {s : Slot}

theorem parameter_of_nil (h : s.delimiter = []) : s.parameter = .undelimited := by
  unfold parameter delimiterValues
  rw [h]
  rfl

theorem delimiterValues_ne_nil (h : s.delimiter ≠ []) : s.delimiterValues ≠ [] :=
  fun hnil => h (List.map_eq_nil_iff.1 hnil)

theorem parameter_of_ne_nil (h : s.delimiter ≠ []) :
    s.parameter = .delimited (.ofList s.delimiterValues) := by
  unfold parameter
  cases hv : s.delimiterValues with
  | nil => exact absurd hv (delimiterValues_ne_nil h)
  | cons v vs => rfl

end Slot

namespace ParameterText

/-- Tokens before the first parameter have to follow the name. -/
theorem foldl_add_lead (lead ts : List Token) :
    ts.foldl add { lead } = { lead := lead ++ ts } := by
  induction ts generalizing lead with
  | nil => simp
  | cons t ts ih =>
    rw [List.foldl_cons]
    show ts.foldl add { lead := lead ++ [t] } = _
    rw [ih, List.append_assoc]
    rfl

/-- Tokens after a parameter are its delimiter. -/
theorem foldl_add_delimiter (lead : List Token) (before : List (List Token)) (d ts : List Token) :
    ts.foldl add { lead, delimiters := before ++ [d] } =
      { lead, delimiters := before ++ [d ++ ts] } := by
  induction ts generalizing d with
  | nil => simp
  | cons t ts ih =>
    have hadd : add { lead, delimiters := before ++ [d] } t =
        { lead, delimiters := before ++ [d ++ [t]] } := by
      simp [add]
    rw [List.foldl_cons, hadd, ih, List.append_assoc]
    rfl

theorem parameters_map_delimiter (lead : List Token) (slots : List Slot) :
    parameters { lead, delimiters := slots.map Slot.delimiter } = slots.map Slot.parameter := by
  unfold parameters
  rw [List.map_map]
  refine List.map_congr_left fun s _ => ?_
  unfold Slot.parameter Slot.delimiterValues
  rw [Function.comp_apply]
  cases s.delimiter <;> rfl

end ParameterText

namespace Definition

theorem parameterRound_ordinary (p : ParameterText) (ht : t.IsOrdinary)
    (h : Stream.raw m = (.ok (some t), m')) :
    parameterRound p m = (.ok (.inl (p.add t)), m') := by
  unfold parameterRound
  rw [Run.bind_of_ok (Run.nextOr_of_some h _)]
  cases hv : t.value with
  | command ref => rfl
  | char category c =>
    cases category with
    | beginGroup => exact absurd (ht.noBegin.symm.trans (by rw [hv]; rfl)) Bool.false_ne_true
    | endGroup => exact absurd (ht.noEnd.symm.trans (by rw [hv]; rfl)) Bool.false_ne_true
    | parameter => exact absurd hv (ht.noParameter c)
    | _ => rfl

theorem parameterRound_slot {p : ParameterText} {s : Slot} (hs : s.WellFormed p.delimiters.length)
    (h : Stream.raw.Supplies [s.mark, s.digit] m m') :
    parameterRound p m = (.ok (.inl p.addParameter), m') := by
  obtain ⟨m₁, hmark, hdigit⟩ := h
  obtain ⟨c, hv⟩ := hs.mark
  obtain ⟨category, c', hv', hcategory, hindex⟩ := hs.digit
  unfold parameterRound
  rw [Run.bind_of_ok (Run.nextOr_of_some hmark _), hv]
  dsimp only
  rw [Run.bind_of_ok (Run.nextOr_of_some (Stream.supplies_singleton.1 hdigit) _), hv']
  cases category with
  | beginGroup => exact absurd rfl hcategory
  | _ =>
    dsimp only
    rw [hindex]
    dsimp only
    rw [if_pos rfl]
    rfl

theorem parameterRound_opener (p : ParameterText) (ht : t.value.isBeginGroup = true)
    (h : Stream.raw m = (.ok (some t), m')) :
    parameterRound p m = (.ok (.inr (p, t, false)), m') := by
  unfold parameterRound
  rw [Run.bind_of_ok (Run.nextOr_of_some h _)]
  cases hv : t.value with
  | command ref =>
    rw [hv] at ht
    cases ht
  | char category c =>
    rw [hv] at ht
    cases category with
    | beginGroup => rfl
    | _ => cases ht

theorem loop_ordinary (p : ParameterText) (hts : ∀ t ∈ ts, t.IsOrdinary) (hm : m.Steady b)
    (h : Stream.raw.Supplies ts m m') :
    Run.loop parameterRound p m = Run.loop parameterRound (ts.foldl ParameterText.add p) m' := by
  induction ts generalizing p m with
  | nil =>
    obtain rfl : m = m' := h
    rfl
  | cons t ts ih =>
    obtain ⟨m₁, ht, hrest⟩ := h
    obtain ⟨hordinary, hts⟩ := List.forall_mem_cons.1 hts
    rw [Run.loop_of_progress (parameterRound_ordinary p hordinary ht)
      (Run.progress_of_raw ht hm.accounted)]
    exact ih (p.add t) hts (hm.raw ht) hrest

theorem loop_slots {lead : List Token} {before : List (List Token)} {slots : List Slot}
    (hslots : Slot.Numbered before.length slots) (hm : m.Steady b)
    (h : Stream.raw.Supplies (slots.flatMap Slot.tokens) m m') :
    Run.loop parameterRound { lead, delimiters := before } m =
      Run.loop parameterRound { lead, delimiters := before ++ slots.map Slot.delimiter } m' := by
  induction slots generalizing before m with
  | nil =>
    obtain rfl : m = m' := h
    simp
  | cons s slots ih =>
    obtain ⟨hs, hslots⟩ := hslots
    rw [List.flatMap_cons] at h
    obtain ⟨m₂, hslot, hrest⟩ := Stream.supplies_append.1 h
    have hsplit : Stream.raw.Supplies ([s.mark, s.digit] ++ s.delimiter) m m₂ := hslot
    obtain ⟨m₁, hmark, hdelimiter⟩ := Stream.supplies_append.1 hsplit
    have hm₁ := hm.supplies hmark
    rw [Run.loop_of_progress (parameterRound_slot hs hmark)
        (Run.progress_of_supplies hmark (List.cons_ne_nil _ _) hm.accounted),
      loop_ordinary _ hs.delimiter hm₁ hdelimiter]
    show Run.loop parameterRound
      (s.delimiter.foldl ParameterText.add { lead, delimiters := before ++ [[]] }) m₂ = _
    rw [ParameterText.foldl_add_delimiter, List.nil_append,
      ih (by simpa using hslots) (hm₁.supplies hdelimiter) hrest]
    simp

/-- The part of a definition before the replacement text is read as it is written. -/
theorem parameterText_eval {d : DefinitionText} (hd : d.WellFormed) (hm : m.Steady b)
    (h : Stream.raw.Supplies (d.lead ++ (d.slots.flatMap Slot.tokens ++ [d.opener])) m m') :
    parameterText m =
      (.ok ({ lead := d.lead, delimiters := d.slots.map Slot.delimiter }, d.opener, false), m') := by
  obtain ⟨m₁, hlead, h⟩ := Stream.supplies_append.1 h
  obtain ⟨m₂, hslots, hopener⟩ := Stream.supplies_append.1 h
  have hparameters : Run.loop parameterRound { lead := d.lead } m₁ =
      Run.loop parameterRound { lead := d.lead, delimiters := d.slots.map Slot.delimiter } m₂ :=
    loop_slots hd.slots (hm.supplies hlead) hslots
  rw [parameterText_eq, loop_ordinary _ hd.lead hm hlead, ParameterText.foldl_add_lead,
    List.nil_append, hparameters]
  exact Run.loop_of_answer (parameterRound_opener _ hd.opener (Stream.supplies_singleton.1 hopener))

end Definition

/-! ### Definitions -/

/-- The macro is what the definition says. -/
structure DefinitionText.Describes (d : DefinitionText) (mac : Macro) : Prop where
  lead : mac.lead = d.lead
  parameters : mac.parameters = d.slots.map Slot.parameter
  replacement : Replacement.ofTokens d.slots.length d.bodyTokens = .ok mac.replacement
  fill (arguments : List (List Token)) : Macro.fill mac.replacement arguments = d.filled arguments

namespace Machine

/-- The machine after all prefixes have been used up. -/
def unprefixed (m : Machine) : Machine := { m with prefixes := {} }

theorem aside_unprefixed : Aside unprefixed :=
  ⟨fun _ => rfl, fun _ => rfl, fun _ => rfl, fun _ => rfl, fun _ _ => rfl, fun _ _ => rfl⟩

end Machine

namespace Definition

/-- A name comes next. -/
theorem commandRef_eval {ref : CommandRef} (hv : t.value = .command ref)
    (h : Stream.raw m = (.ok (some t), m')) : Reader.commandRef m = (.ok ref, m') := by
  have hspace : t.value.isSpace = false := by
    rw [hv]
    rfl
  unfold Reader.commandRef
  rw [Run.bind_of_ok (Run.skipSpaces_of_some h hspace), Run.bind_of_ok (Run.raw_of_pushBack h)]
  dsimp only
  rw [hv]
  rfl

/-- A definition binds its name to the macro that it describes. -/
theorem define_eval {d : DefinitionText} (hd : d.WellFormed) {name : Token} {ref : CommandRef}
    (hv : name.value = .command ref) (hm : m.Steady b)
    (h : Stream.raw.Supplies (name :: d.tokens) m m') (everywhere : Bool) :
    ∃ mac, d.Describes mac ∧ mac.long = m.prefixes.long ∧ mac.shielded = m.prefixes.shielded ∧
      define everywhere false m = (.ok ⟨⟩, m'.unprefixed.change
        (.bound (if everywhere || m.prefixes.everywhere then .everywhere else .inner) ref
          (.custom mac))) := by
  obtain ⟨r, hr, hfill⟩ := Replacement.ofTokens_body hd.body
  have hsplit : d.tokens = (d.lead ++ (d.slots.flatMap Slot.tokens ++ [d.opener])) ++
      (d.bodyTokens ++ [d.closer]) := by
    simp [DefinitionText.tokens]
  rw [hsplit] at h
  obtain ⟨m₁, hname, hrest⟩ := Machine.aside_unprefixed.supplies h
  obtain ⟨m₂, hparameters, hbody⟩ := Stream.supplies_append.1 hrest
  have hm₀ : m.unprefixed.Steady b := ⟨hm.bindings, hm.accounted⟩
  have hm₁ := hm₀.raw hname
  refine ⟨{ long := m.prefixes.long
            shielded := m.prefixes.shielded
            lead := d.lead
            parameters := d.slots.map Slot.parameter
            replacement := r }, ⟨rfl, rfl, hr, hfill⟩, rfl, rfl, ?_⟩
  unfold define
  rw [Run.get_bind_eval, Run.modify_bind_eval]
  show (Reader.commandRef >>= _) m.unprefixed = _
  rw [Run.bind_of_ok (commandRef_eval hv hname),
    Run.bind_of_ok (parameterText_eval hd hm₁ hparameters)]
  dsimp only
  rw [Run.bind_of_ok (Reader.finishBalanced_eval hd.balanced hd.closer (hm₁.supplies hparameters)
    hbody), if_neg Bool.false_ne_true, pure_bind]
  have hreplacement : orFail (Replacement.ofTokens (d.slots.map Slot.delimiter).length d.bodyTokens)
      m'.unprefixed = (.ok r, m'.unprefixed) := by
    rw [List.length_map]
    unfold DefinitionText.bodyTokens
    rw [hr]
    rfl
  rw [Run.bind_of_ok hreplacement, ParameterText.parameters_map_delimiter]
  rfl

end Definition

end Gullet

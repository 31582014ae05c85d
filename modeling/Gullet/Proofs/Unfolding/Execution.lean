import Gullet.Proofs.Unfolding.Executing

/-!
# What execution respects

Every command respects the relations that the acts of execution respect, and so does the processing of
any token; only prefix commands have to be looked at apart. By induction on the number of steps, so does
the main loop, and with it the reading of a document up to its end.
-/

namespace Gullet

namespace Run

section

variable {P : Relation} [Enacting P]

/-! ### Arithmetic -/

@[grind .] theorem respects_undefinedFault (t : Token) : (undefinedFault t).Respects P := by
  unfold undefinedFault
  split
  · exact .get (fun m n h => by rw [h.scopes]) fun _ => respects_pure _
  · exact respects_pure _

@[grind .] theorem respects_atSign (code : CatCode) : (Assignment.atSign code).Respects P :=
  (usesUp_of_takeScope fun scope => respects_writeCatCode scope _ _).respects rfl

@[grind .] theorem respects_target : Assignment.target.Respects P := by
  refine (relates_nextOr respects_main _).bind fun t => ?_
  grind

@[grind .] theorem respects_orOverflow {α : Type} (op : Arithmetic) {left : Run String}
    (hl : left.Respects P) (right : Int) (a : Option α) :
    (Assignment.orOverflow op left right a).Respects P := by
  unfold Assignment.orOverflow
  grind

@[grind .] theorem respects_onInteger (op : Arithmetic) (n : Int) :
    (Assignment.onInteger op n).Respects P := by
  unfold Assignment.onInteger
  grind

end

section

variable {P : Relation} [Assigning P]

@[grind .] theorem respects_write (scope : Scope) (w : Store.Write) : (write scope w).Respects P :=
  Assigning.write scope w

variable [Overflowing P]

@[grind .] theorem respects_onDimen (op : Arithmetic) (d : Dimen) :
    (Assignment.onDimen op d).Respects P := by
  unfold Assignment.onDimen
  cases op <;> grind

theorem usesUp_arithmetic (op : Arithmetic) (t : Token) :
    (Assignment.arithmetic op t).UsesUp P unscoped := by
  refine usesUp_of_takeScope fun scope => respects_target.bind fun (name, command) => ?_
  refine (relates_variableOf respects_expand name command).bind fun v => ?_
  refine (relates_keyword respects_main "by").bind fun _ => ?_
  cases v with
  | int i => exact .get (fun m n h => by rw [h.scopes]) fun m => by grind
  | dimen index => exact .get (fun m n h => by rw [h.scopes]) fun m => by grind
  | tokenList index => exact respects_fail _
  | catCode c => exact respects_fail _

/-- A relation that does not mind which numbers are written, or that one is too large, respects all that
writes them. -/
instance : Executing P where
  assign scope v := by
    have h : (Assignment.assign scope v).Respects P := by
      unfold Assignment.assign
      cases v <;> grind
    exact h
  arithmetic op t := (usesUp_arithmetic op t).respects rfl

end

section

variable {P : Relation} [Executing P]

/-! ### Assignments -/

@[grind .] theorem respects_arithmetic (op : Arithmetic) (t : Token) :
    (Assignment.arithmetic op t).Respects P := Executing.arithmetic op t

@[grind .] theorem respects_assign (scope : Scope) (v : Variable) :
    (Assignment.assign scope v).Respects P := Executing.assign scope v

theorem usesUp_ofVariable (t : Token) (v : VariableCommand) :
    (Assignment.ofVariable t v).UsesUp P unscoped := by
  refine usesUp_of_takeScope fun scope => ?_
  grind

@[grind .] theorem respects_ofVariable (t : Token) (v : VariableCommand) :
    (Assignment.ofVariable t v).Respects P := (usesUp_ofVariable t v).respects rfl

theorem respects_prefixes (p : Assignment.PrefixTokens) : (Assignment.prefixes p).Respects P := by
  refine Relates.loop (fun p => (relates_nextOr respects_main _).bind fun t => ?_) p
  split
  · exact respects_pure _
  · exact .get (fun m n h => by rw [h.scopes]) fun m => by grind

/-- A prefix command respects the relation too if it respects that prefixes wait. -/
theorem respects_prefixModifier (kind : PrefixKind) (t : Token)
    (hwait : ∀ prefixes, Respects P (modify fun m => { m with prefixes } : Run PUnit)) :
    (Assignment.modifier kind t).Respects P := by
  refine (respects_prefixes _).bind fun (p, next) => ?_
  dsimp only
  split
  · exact respects_fail _
  · refine (respects_lookup _).bind fun command => ?_
    split
    · exact respects_fail _
    · exact (respects_pushBack next).bind fun _ => hwait _

/-! ### Definitions -/

@[grind .] theorem respects_orFail {α : Type} (r : Except Fault α) :
    (Definition.orFail r).Respects P := by
  unfold Definition.orFail
  grind

theorem respects_bindMacro (scope : Scope) (name : CommandRef) {m : Macro} (hm : m.WellFormed) :
    (Definition.bindMacro scope name m).Respects P := respects_bindRef scope name hm

@[grind .] theorem respects_parameterText : Definition.parameterText.Respects P := by
  refine Relates.loop (fun p => (relates_nextOr respects_raw _).bind fun t => ?_) _
  split
  · exact respects_pure _
  · exact respects_fail _
  · refine (relates_nextOr respects_raw _).bind fun next => ?_
    grind
  · exact respects_pure _

theorem usesUp_define (everywhere expanded : Bool) :
    (Definition.define everywhere expanded).UsesUp P fun _ => {} := by
  refine ⟨_, ?_, ?_, rfl⟩
  · intro m n h
    dsimp only
    rw [h.prefixes]
  · intro m
    refine respects_commandRef.bind fun name => ?_
    refine respects_parameterText.bind_of_mayGive fun (p, opener, closing) hp => ?_
    refine (relates_finishBalanced respects_raw opener).bind fun body => ?_
    have hwell := Definition.wellFormed_of_parameterText hp
    have hbind (scope : Scope) (body : List Token) :
        (do
          let replacement ← Definition.orFail (Replacement.ofTokens p.delimiters.length body)
          Definition.bindMacro scope name
            { long := m.prefixes.long
              shielded := m.prefixes.shielded
              lead := p.lead
              parameters := p.parameters
              replacement :=
                if closing then Replacement.concatToken replacement opener else replacement }).Respects P := by
      refine (respects_orFail _).bind_of_mayGive fun replacement hr => ?_
      refine respects_bindMacro scope name ?_
      refine hwell.macro rfl rfl ?_
      have hreplacement := Replacement.wellFormed_of_ofTokens (Definition.ok_of_orFail hr)
      cases closing with
      | true => exact hreplacement.concatToken opener
      | false => exact hreplacement
    have hexpand : (Stream.expandFully expand body).Respects P :=
      relates_expandFully respects_expand body
    have hpure : (pure body : Run (List Token)).Respects P := respects_pure body
    cases expanded with
    | true => exact hexpand.bind fun body => hbind _ body
    | false => exact hpure.bind fun body => hbind _ body

@[grind .] theorem respects_define (everywhere expanded : Bool) :
    (Definition.define everywhere expanded).Respects P := (usesUp_define everywhere expanded).respects rfl

@[grind .] theorem respects_signature (t : Token) : (Definition.signature t).Respects P := by
  refine respects_optionalArgument.bind fun ts => ?_
  grind

theorem respects_bindCounted (t : Token) (name : CommandRef) {s : Definition.Signature} (hs : s.count ≤ 9)
    (body : List Token) (long : Bool) : (Definition.bindCounted t name s body long).Respects P := by
  refine (respects_orFail _).bind_of_mayGive fun replacement hr => ?_
  have hreplacement := Replacement.wellFormed_of_ofTokens (Definition.ok_of_orFail hr)
  split
  · exact respects_bindMacro _ _ (Macro.wellFormed_of_replicate rfl rfl hs hreplacement)
  · refine Relates.bind (respects_bindMacro _ _ ?_) fun _ => ?_
    · exact Macro.wellFormed_of_bracket rfl rfl hs hreplacement
    · exact respects_bindMacro _ _ (Macro.wellFormed_of_tokens rfl rfl rfl (List.cons_ne_nil _ _))

@[grind .] theorem respects_commandName (t : Token) : (Definition.commandName t).Respects P := by
  unfold Definition.commandName
  grind

@[grind .] theorem respects_defineCommand (policy : DefinitionPolicy) (t : Token) :
    (Definition.command policy t).Respects P := by
  refine (respects_modifier '*').bind fun short => (respects_commandName t).bind fun name => ?_
  refine (respects_signature t).bind_of_mayGive fun s hs => respects_argument.bind fun body => ?_
  have hbind (long : Bool) := respects_bindCounted (P := P) t name
    (Definition.count_le_of_signature hs) body long
  grind

@[grind .] theorem respects_environmentName (t : Token) : (Definition.environmentName t).Respects P := by
  unfold Definition.environmentName
  grind

@[grind .] theorem respects_environment (renew : Bool) (t : Token) :
    (Definition.environment renew t).Respects P := by
  refine (respects_modifier '*').bind fun short => (respects_environmentName t).bind fun name => ?_
  refine (respects_signature t).bind_of_mayGive fun s hs => respects_argument.bind fun first => ?_
  refine respects_argument.bind fun last => ?_
  have hbegin := respects_bindCounted (P := P) t (Definition.beginning name)
    (Definition.count_le_of_signature hs) first !short
  have hend := respects_bindCounted (P := P) t (Definition.ending name)
    (s := { count := 0, default := none }) (Nat.zero_le 9) last !short
  grind

theorem usesUp_letMeaning : Definition.letMeaning.UsesUp P unscoped := by
  have hs : Stream.raw.Respects P := respects_raw
  refine usesUp_of_takeScope fun scope => ?_
  grind

@[grind .] theorem respects_letMeaning : Definition.letMeaning.Respects P :=
  usesUp_letMeaning.respects rfl

theorem usesUp_newSwitch (t : Token) : (Definition.newSwitch t).UsesUp P unscoped := by
  refine usesUp_of_takeScope fun scope => respects_commandRef.bind fun ref => ?_
  split
  · exact respects_fail _
  · refine (respects_bindMacro scope _ (Macro.wellFormed_of_tokens rfl rfl rfl ?_)).bind fun _ => ?_
    · exact List.cons_ne_nil _ _
    refine (respects_bindMacro scope _ (Macro.wellFormed_of_tokens rfl rfl rfl ?_)).bind fun _ => ?_
    · exact List.cons_ne_nil _ _
    exact respects_bindRef scope ref trivial

@[grind .] theorem respects_newSwitch (t : Token) : (Definition.newSwitch t).Respects P :=
  (usesUp_newSwitch t).respects rfl

theorem usesUp_nameRegister (kind : RegisterKind) :
    (Definition.nameRegister kind).UsesUp P unscoped := by
  have hbind (scope : Scope) (ref : CommandRef) (v : Variable) :
      (bindRef scope ref (.quantity (.fixed v))).Respects P := respects_bindRef scope ref trivial
  refine usesUp_of_takeScope fun scope => ?_
  grind

@[grind .] theorem respects_nameRegister (kind : RegisterKind) :
    (Definition.nameRegister kind).Respects P := (usesUp_nameRegister kind).respects rfl

/-! ### Typesetting -/

@[grind .] theorem respects_inGroup (t : Token) (f : Settings → Settings) (argument : List Token) :
    (Typesetting.inGroup t f argument).Respects P := by
  unfold Typesetting.inGroup
  grind

@[grind .] theorem respects_styled (change : SettingsChange) (t : Token) :
    (Typesetting.styled change t).Respects P := by
  unfold Typesetting.styled
  grind

@[grind .] theorem respects_colorName : Typesetting.colorName.Respects P := by
  refine respects_optionalArgument.bind fun given => ?_
  grind

@[grind .] theorem respects_color : Typesetting.color.Respects P := by
  unfold Typesetting.color
  grind

@[grind .] theorem respects_textColor (t : Token) : (Typesetting.textColor t).Respects P := by
  unfold Typesetting.textColor
  grind

@[grind .] theorem respects_verb (t : Token) : (Typesetting.verb t).Respects P := by
  refine (respects_modifier '*').bind fun starred => ?_
  exact Relates.bind (P := P) (Enacting.verbatim t) fun text =>
    respects_emit (by simp [Event.IsPlain]) (by simp [Event.IsSilent])

@[grind .] theorem respects_href : Typesetting.href.Respects P := by
  unfold Typesetting.href
  grind

@[grind .] theorem respects_includeGraphics : Typesetting.includeGraphics.Respects P := by
  unfold Typesetting.includeGraphics
  grind

@[grind .] theorem respects_tell (s : String) : (Typesetting.announce s).Respects P := by
  unfold Typesetting.announce
  grind

@[grind .] theorem respects_message : Typesetting.message.Respects P := by
  unfold Typesetting.message
  grind

@[grind .] theorem respects_showMeaning : Typesetting.showMeaning.Respects P := by
  refine (relates_nextOr respects_raw _).bind fun t => ?_
  exact .get (fun m n h => by rw [h.builtIns, h.scopes]) fun m => respects_tell _

@[grind .] theorem respects_script (t : Token) {event : String → Object → Event}
    (he : ∀ s o, (event s o).IsPlain) (hs : ∀ s o, (event s o).IsSilent) :
    (Typesetting.script t event).Respects P := by
  refine (relates_object respects_expand).bind fun r => ?_
  cases r with
  | none => exact respects_fail _
  | some argument => exact respects_emit (he _ _) (hs _ _)

@[grind .] theorem respects_mathShift (t : Token) : (Typesetting.mathShift t).Respects P := by
  have hs : Stream.raw.Respects P := respects_raw
  exact .get (fun m n h => by rw [h.scopes]) fun m => by grind

/-! ### Processing a token -/

@[grind .] theorem respects_beginEnvironment (t : Token) : (Execution.beginEnvironment t).Respects P := by
  unfold Execution.beginEnvironment
  grind

@[grind .] theorem respects_endEnvironment (t : Token) : (Execution.endEnvironment t).Respects P := by
  unfold Execution.endEnvironment
  grind

@[grind .] theorem respects_closeEnvironment (t : Token) :
    (Execution.closeEnvironment t).Respects P := by
  refine (respects_environmentName t).bind fun name => ?_
  exact .get (fun m n h => by rw [h.scopes]) fun m => by grind

/-- Every primitive respects the relation, if prefix commands do. -/
theorem respects_executionPrimitive {t : Token} {p : ExecutionPrimitive}
    (hmodifier : ∀ kind, p = .modifier kind → (Assignment.modifier kind t).Respects P) :
    (Execution.primitive t p).Respects P := by
  unfold Execution.primitive
  cases p with
  | modifier kind => exact hmodifier kind rfl
  | _ => grind

@[grind .] theorem respects_collect (t : Token) : (Execution.collect t).Respects P :=
  Enacting.put (P := P) (fun o => { o with collected := t :: o.collected }) fun _ => rfl

@[grind .] theorem respects_undefined (t : Token) (ref : CommandRef) :
    (Execution.undefined t ref).Respects P :=
  .get (fun m n h => by rw [h.handlers, h.config]) fun m => by grind

@[grind .] theorem respects_unexpanded (t : Token) : (Execution.unexpanded t).Respects P :=
  .get (fun m n h => by rw [h.handlers]) fun m => by grind

end

/-! ### Characters -/

section

variable {P : Relation} [Writing P]

@[grind .] theorem respects_writeChar (c : Char) : (Typesetting.writeChar c).Respects P :=
  .get (fun m n h => by rw [h.scopes]) fun m => Writing.write _ _

@[grind .] theorem respects_typeset (t : Token) (category : CharCategory) (c : Char) :
    (Typesetting.typeset t category c).Respects P := by
  unfold Typesetting.typeset
  cases category with
  | space => exact .get (fun m n h => by rw [h.scopes]) fun m => by grind
  | _ => grind

@[grind .] theorem respects_executionCharacter (t : Token) (category : CharCategory) (c : Char) :
    (Execution.character t category c).Respects P :=
  .get (fun m n h => by rw [h.handlers]) fun m => by grind

@[grind .] theorem respects_processChar (t : Token) (category : CharCategory) (c : Char) :
    (Execution.processChar t category c).Respects P := by
  unfold Execution.processChar
  cases category <;> grind

/-- To process a token respects the relation, if prefix commands do. -/
theorem respects_process {t : Token}
    (hmodifier : ∀ kind, (Assignment.modifier kind t).Respects P) :
    (Execution.process t).Respects P := by
  unfold Execution.process
  split
  · exact respects_processChar t _ _
  · refine (respects_lookup _).bind fun command => ?_
    cases command with
    | execution p => exact (respects_executionPrimitive fun kind _ => hmodifier kind).during _ t
    | quantity v => exact respects_ofVariable t v
    | character category c => exact respects_processChar _ _ _
    | expansion p => exact respects_unexpanded t
    | custom mac => exact respects_unexpanded t
    | undefined => exact respects_undefined t _

/-! ### Documents -/

theorem mainLoop_zero :
    Session.mainLoop 0 = (do
      match ← Stream.main with
      | none => return ()
      | some _ => throw .outOfSteps : Run Unit) := by
  funext m
  rw [Session.mainLoop, bind_eval]
  rcases Stream.main m with ⟨halt | _ | t, read⟩ <;> rfl

theorem mainLoop_succ (steps : Nat) :
    Session.mainLoop (steps + 1) = (do
      match ← Stream.main with
      | none => return ()
      | some t =>
        Execution.process t
        Session.mainLoop steps : Run Unit) := by
  funext m
  rw [Session.mainLoop, bind_eval]
  rcases Stream.main m with ⟨halt | _ | t, read⟩
  · rfl
  · rfl
  · dsimp only
    rw [bind_eval]
    rcases Execution.process t read with ⟨halt | _, m'⟩
    · rfl
    · rfl

section

variable (hmodifier : ∀ kind t, (Assignment.modifier kind t).Respects P)
include hmodifier

theorem respects_mainLoop (steps : Nat) : Respects P (α := Unit) (Session.mainLoop steps) := by
  induction steps with
  | zero =>
    rw [mainLoop_zero]
    refine (respects_main (P := P)).bind fun r => ?_
    cases r with
    | none => exact respects_pure _
    | some t => exact respects_throw trivial
  | succ steps ih =>
    rw [mainLoop_succ]
    refine (respects_main (P := P)).bind fun r => ?_
    cases r with
    | none => exact respects_pure _
    | some t => exact (respects_process fun kind => hmodifier kind t).bind fun _ => ih

/-- The reading of a document up to its end respects the relation, if prefix commands do. -/
theorem respects_document (handlers : Handlers) (origin : Origin) (content : String) :
    (Session.document handlers origin content).Respects P := by
  have hcheck : Session.checkGroups.Respects P :=
    .get (fun m n h => by rw [h.scopes]) fun m => by grind
  have hrun : (Session.runFor handlers (Session.documentLimit content)).Respects P :=
    Relates.bind (P := P) (Enacting.handle handlers) fun _ => respects_mainLoop hmodifier _
  have hbegin : (emit (.beginParse origin)).Respects P :=
    respects_emit (by simp [Event.IsPlain]) (by simp [Event.IsSilent])
  exact hbegin.bind fun _ => (respects_openSource origin content).bind fun _ =>
    hrun.bind fun _ => hcheck

end

end

end Run

namespace Coupling

/-- A coupling that the acts of expansion respect is respected by all that execution is made of, too. -/
instance {ι : Type} (C : Coupling ι) [C.Expanding] : Run.Writing C.Coupled where
  write _ _ := .emit _

end Coupling

end Gullet

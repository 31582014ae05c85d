import Gullet.Execution
import Gullet.Proofs.Taking.Expansion

/-!
# What execution takes

Every execution primitive takes tokens, except for those that put something of their own in front of the
input: the commands that begin and end environments, and those that typeset an argument as a group.
-/

namespace Gullet

/-- The execution primitives that put tokens of their own in front of the input. -/
def ExecutionPrimitive.Pushes : ExecutionPrimitive → Prop
  | beginEnvironment | endEnvironment | styled _ | textColor => True
  | _ => False

namespace Run

variable {levels : Nat}

/-! ### Assignments -/

theorem spends_assign (scope : Scope) (v : Variable) : (Assignment.assign scope v).Spends levels := by
  cases v with
  | int v => exact (spends_number counts_expand).bind fun n => (stays_write scope _).spends
  | dimen index => exact (spends_dimen counts_expand).bind fun d => (stays_write scope _).spends
  | tokenList index => exact (spends_tokenList counts_expand).bind fun ts => (stays_write scope _).spends
  | catCode c => exact (spends_catCode counts_expand).bind fun code => (stays_write scope _).spends

theorem spends_ofVariable (t : Token) (v : VariableCommand) :
    (Assignment.ofVariable t v).Spends levels := by
  refine stays_takeScope.consumes_bind fun scope => ?_
  refine (spends_variableOf counts_expand t v).bind fun v => ?_
  exact ((spends_optionalEquals takes_main).bind fun _ => spends_assign scope v).during _ t

theorem stays_atSign (code : CatCode) : (Assignment.atSign code).Stays :=
  stays_takeScope.bind fun scope => stays_write scope _

theorem spends_target : Assignment.target.Spends levels := by
  refine (spends_nextOr takes_main _).bind fun t => ?_
  split
  · exact spends_fail _
  · refine (stays_lookup _).consumes_bind fun command => ?_
    split
    · exact spends_pure _
    · exact (stays_undefinedFault t).consumes_bind fun f => spends_fail f
    · exact spends_fail _

theorem spends_orOverflow {α : Type} (op : Arithmetic) {left : Run String} (hl : left.Spends levels)
    (right : Int) (a : Option α) : (Assignment.orOverflow op left right a).Spends levels := by
  cases a with
  | none => exact hl.bind fun _ => spends_fail _
  | some a => exact spends_pure a

theorem spends_onInteger (op : Arithmetic) (n : Int) : (Assignment.onInteger op n).Spends levels := by
  refine (spends_number counts_expand).bind fun operand => ?_
  cases op with
  | advance => exact spends_pure _
  | multiply => exact spends_orOverflow _ (spends_pure _) _ _
  | divide =>
    dsimp only
    split
    · exact spends_fail _
    · exact spends_orOverflow _ (spends_pure _) _ _

theorem spends_onDimen (op : Arithmetic) (d : Dimen) : (Assignment.onDimen op d).Spends levels := by
  cases op with
  | advance => exact (spends_dimen counts_expand).bind fun _ => spends_pure _
  | multiply =>
    exact (spends_number counts_expand).bind fun _ => spends_orOverflow _ (spends_dimenText d) _ _
  | divide =>
    refine (spends_number counts_expand).bind fun operand => ?_
    split
    · exact (spends_dimenText d).bind fun _ => spends_fail _
    · exact spends_orOverflow _ (spends_dimenText d) _ _

theorem spends_arithmetic (op : Arithmetic) (t : Token) :
    (Assignment.arithmetic op t).Spends levels := by
  refine stays_takeScope.consumes_bind fun scope => spends_target.bind fun (name, command) => ?_
  refine (spends_variableOf counts_expand name command).bind fun v => ?_
  refine (spends_keyword takes_main "by").bind fun _ => ?_
  cases v with
  | int i =>
    exact .get_bind fun m => (spends_onInteger op _).bind fun n => (stays_write scope _).spends
  | dimen index =>
    exact .get_bind fun m => (spends_onDimen op _).bind fun d => (stays_write scope _).spends
  | tokenList index => exact spends_fail _
  | catCode c => exact spends_fail _

/-- The command after prefixes is taken last. -/
theorem consumes_prefixes (p : Assignment.PrefixTokens) :
    (Assignment.prefixes p).Consumes levels fun (_, next) ts => ∃ us, ts = us ++ [next] := by
  refine Consumes.loop (I := fun _ _ => True) (fun p us _ => ?_) trivial
  refine (consumes_nextOr takes_main _).bind ?_
  rintro t _ rfl
  split
  · exact consumes_pure ⟨List.cons_ne_nil t [], trivial⟩
  · refine .get_bind fun m => ?_
    split
    · exact consumes_pure ⟨List.cons_ne_nil t [], trivial⟩
    · exact consumes_pure ⟨us, rfl⟩

theorem spends_prefixModifier (kind : PrefixKind) (t : Token) :
    (Assignment.modifier kind t).Spends levels := by
  refine consumes_of_takes fun m₀ => (consumes_prefixes _).takes_bind ?_
  rintro ⟨p, next⟩ _ ⟨us, rfl⟩
  rw [← List.append_assoc]
  dsimp only
  split
  · exact takes_fail _
  · refine (stays_lookup _).takes_bind fun command => ?_
    split
    · exact takes_fail _
    · refine (takes_pushBack next).bind fun _ _ _ => ?_
      refine Spends.takes (Stays.spends (stays_modify fun _ => ?_))
      exact ⟨rfl, rfl, rfl, rfl, rfl⟩

/-! ### Definitions -/

theorem spends_orFail {α : Type} (r : Except Fault α) : (Definition.orFail r).Spends levels := by
  cases r with
  | ok a => exact spends_pure a
  | error f => exact spends_fail f

theorem stays_bindMacro (scope : Scope) (name : CommandRef) (m : Macro) :
    (Definition.bindMacro scope name m).Stays := stays_bindRef scope name _

theorem spends_parameterText : Definition.parameterText.Spends levels := by
  refine .loop_of_bind (consumes_nextOr_ne_nil takes_raw _) (fun p t => ?_) _
  split
  · exact spends_pure _
  · exact spends_fail _
  · refine (spends_nextOr takes_raw _).bind fun next => ?_
    split
    · exact spends_pure _
    · exact spends_fail _
    · split
      · exact spends_fail _
      · dsimp only
        split
        · exact spends_pure _
        · exact spends_fail _
  · exact spends_pure _

theorem spends_define (everywhere expanded : Bool) :
    (Definition.define everywhere expanded).Spends levels := by
  refine .get_bind fun m => ?_
  refine Stays.consumes_bind (stays_modify fun _ => ⟨rfl, rfl, rfl, rfl, rfl⟩) fun _ => ?_
  refine spends_commandRef.bind fun name => spends_parameterText.bind fun (p, opener, closing) => ?_
  refine (spends_finishBalanced takes_raw opener).bind fun body => ?_
  have hbind (body : List Token) : (do
      let replacement ← Definition.orFail (Replacement.ofTokens p.delimiters.length body)
      Definition.bindMacro (if everywhere || m.prefixes.everywhere then .everywhere else .inner) name
        { long := m.prefixes.long
          shielded := m.prefixes.shielded
          lead := p.lead
          parameters := p.parameters
          replacement :=
            if closing then Replacement.concatToken replacement opener else replacement } :
        Run Unit).Spends levels :=
    (spends_orFail _).bind fun _ => (stays_bindMacro _ _ _).spends
  cases expanded with
  | false => exact (spends_pure body).bind hbind
  | true => exact (spends_expandFully counts_expand body).bind hbind

theorem spends_signature (t : Token) : (Definition.signature t).Spends levels := by
  refine spends_optionalArgument.bind fun given => ?_
  cases given with
  | none => exact spends_pure _
  | some ts =>
    dsimp only
    split
    · exact spends_fail _
    · exact spends_pure _
    · exact spends_optionalArgument.bind fun _ => spends_pure _

theorem spends_bindCounted (t : Token) (name : CommandRef) (s : Definition.Signature)
    (body : List Token) (long : Bool) :
    (Definition.bindCounted t name s body long).Spends levels := by
  refine (spends_orFail _).bind fun replacement => ?_
  split
  · exact (stays_bindMacro _ _ _).spends
  · exact ((stays_bindMacro _ _ _).bind fun _ => stays_bindMacro _ _ _).spends

theorem spends_commandName (t : Token) : (Definition.commandName t).Spends levels := by
  refine spends_argument.bind fun ts => ?_
  split
  · exact spends_pure _
  · exact spends_fail _

theorem spends_defineCommand (policy : DefinitionPolicy) (t : Token) :
    (Definition.command policy t).Spends levels := by
  refine (spends_modifier '*').bind fun short => (spends_commandName t).bind fun name => ?_
  refine (spends_signature t).bind fun s => spends_argument.bind fun body => ?_
  refine (stays_lookup name).consumes_bind fun command => ?_
  dsimp only
  split
  · exact (stays_recoverable _).spends
  · exact spends_pure _
  · exact (stays_recoverable _).consumes_bind fun _ => spends_bindCounted _ _ _ _ _
  · exact spends_bindCounted _ _ _ _ _

/-- What is taken for the name of an environment is a label, and not an empty one. -/
theorem consumes_environmentName (t : Token) :
    (Definition.environmentName t).Consumes levels fun name ts => IsLabel ts name ∧ name ≠ "" := by
  refine (consumes_label counts_expand).bind fun name ts hname => ?_
  split
  case isTrue => exact consumes_fail _
  case isFalse hempty =>
    refine consumes_pure ⟨by simpa using hname, ?_⟩
    simpa using hempty

theorem spends_environment (renew : Bool) (t : Token) :
    (Definition.environment renew t).Spends levels := by
  refine (spends_modifier '*').bind fun short => (consumes_environmentName t).spends.bind fun name => ?_
  refine (spends_signature t).bind fun s => spends_argument.bind fun first => ?_
  refine spends_argument.bind fun last => (stays_lookup _).consumes_bind fun command => ?_
  have hboth : (do
      Definition.bindCounted t (Definition.beginning name) s first !short
      Definition.bindCounted t (Definition.ending name) { count := 0, default := none } last !short :
        Run Unit).Spends levels :=
    (spends_bindCounted _ _ _ _ _).bind fun _ => spends_bindCounted _ _ _ _ _
  dsimp only
  split
  · exact (stays_recoverable _).spends
  · exact (stays_recoverable _).consumes_bind fun _ => hboth
  · exact hboth

theorem spends_letMeaning : Definition.letMeaning.Spends levels := by
  refine stays_takeScope.consumes_bind fun scope => spends_commandRef.bind fun name => ?_
  refine (spends_optionalEquals takes_raw).bind fun _ => (spends_nextOr takes_raw _).bind fun t => ?_
  have hbind (t : Token) : (bindToken scope name t).Spends levels := (stays_bindToken scope name t).spends
  split
  · exact (spends_nextOr takes_raw _).bind hbind
  · exact (spends_pure t).bind hbind

theorem spends_newSwitch (t : Token) : (Definition.newSwitch t).Spends levels := by
  refine stays_takeScope.consumes_bind fun scope => spends_commandRef.bind fun ref => ?_
  split
  · exact spends_fail _
  · exact ((stays_bindMacro _ _ _).bind fun _ => (stays_bindMacro _ _ _).bind fun _ =>
      stays_bindRef _ _ _).spends

theorem spends_nameRegister (kind : RegisterKind) : (Definition.nameRegister kind).Spends levels := by
  refine stays_takeScope.consumes_bind fun scope => spends_commandRef.bind fun name => ?_
  refine (spends_optionalEquals takes_main).bind fun _ => ?_
  exact (spends_natural counts_expand _).bind fun index => (stays_bindRef _ _ _).spends

/-! ### Typesetting -/

theorem spends_colorName : Typesetting.colorName.Spends levels := by
  refine spends_optionalArgument.bind fun given => ?_
  cases given with
  | none =>
    refine (spends_pure none).bind fun model => (spends_label counts_expand).bind fun name => ?_
    split
    · exact spends_pure _
    · exact spends_pure _
  | some ts =>
    refine (spends_expandFully counts_expand ts).bind fun r => ?_
    refine (spends_pure (some _)).bind fun model => (spends_label counts_expand).bind fun name => ?_
    split
    · exact spends_pure _
    · exact spends_pure _

theorem spends_color : Typesetting.color.Spends levels :=
  spends_colorName.bind fun _ => (stays_mapSettings _).spends

theorem spends_verbatim (t : Token) : (Typesetting.verbatim t).Spends levels := by
  refine (spends_nextOr takes_raw _).bind fun first => ?_
  split
  · exact spends_fail _
  · refine .loop_of_bind (consumes_nextOr_ne_nil takes_raw _) (fun sofar next => ?_) _
    split
    · exact spends_pure _
    · split
      · exact spends_fail _
      · split
        · exact spends_pure _
        · exact spends_pure _

theorem spends_verb (t : Token) : (Typesetting.verb t).Spends levels :=
  (spends_modifier '*').bind fun _ => (spends_verbatim t).withVerbatimCodes.bind fun _ =>
    (stays_emit _).spends

theorem spends_href : Typesetting.href.Spends levels :=
  spends_argument.bind fun _ => spends_argument.bind fun text =>
    (spends_expandFully counts_expand text).bind fun _ => (stays_emit _).spends

theorem spends_includeGraphics : Typesetting.includeGraphics.Spends levels :=
  (spends_modifier '*').bind fun _ => spends_optionalArgument.bind fun _ =>
    (spends_label counts_expand).bind fun _ =>
      ((stays_emit _).bind fun _ => stays_emit _).spends

theorem stays_announce (s : String) : (Typesetting.announce s).Stays :=
  (stays_writeTerminal _).bind fun _ => stays_writeLog _

theorem spends_message : Typesetting.message.Spends levels :=
  spends_argument.bind fun text => (spends_expandFully counts_expand text).bind fun _ =>
    ((stays_announce _).bind fun _ => stays_emit _).spends

theorem spends_showMeaning : Typesetting.showMeaning.Spends levels :=
  (spends_nextOr takes_raw _).bind fun _ => .get_bind fun _ => (stays_announce _).spends

theorem spends_script (t : Token) (event : String → Object → Event) :
    (Typesetting.script t event).Spends levels := by
  refine (spends_object counts_expand).bind fun r => ?_
  cases r with
  | none => exact spends_fail _
  | some argument => exact (stays_emit _).spends

theorem stays_writeChar (c : Char) : (Typesetting.writeChar c).Stays :=
  .get_bind fun _ => stays_emit _

theorem spends_typeset (t : Token) (category : CharCategory) (c : Char) :
    (Typesetting.typeset t category c).Spends levels := by
  cases category with
  | superscript => exact spends_script t _
  | subscript => exact spends_script t _
  | alignmentTab => exact (stays_emit _).spends
  | parameter => exact (stays_recoverable _).spends
  | space =>
    refine .get_bind fun m => ?_
    split
    · exact spends_pure _
    · exact (stays_writeChar ' ').spends
  | _ => exact (stays_writeChar c).spends

theorem spends_mathShift (t : Token) : (Typesetting.mathShift t).Spends levels := by
  refine .get_bind fun m => ?_
  dsimp only
  split
  · refine (spends_stream takes_raw).bind fun next? => ?_
    cases next? with
    | none => exact spends_fail _
    | some next =>
      dsimp only
      split
      · exact (stays_endGroup _ t).spends
      · exact spends_fail _
  · exact (stays_endGroup _ t).spends
  · exact (consumes_take?_ne_nil takes_raw _).spends.bind fun _ => (stays_beginGroup _ t).spends

/-! ### Processing a token -/

theorem spends_closeEnvironment (t : Token) : (Execution.closeEnvironment t).Spends levels := by
  refine (consumes_environmentName t).spends.bind fun name => .get_bind fun m => ?_
  split
  · split
    · exact (stays_endGroup _ t).spends
    · exact spends_fail _
  · exact (stays_endGroup _ t).spends

/-- Every other execution primitive takes tokens. -/
theorem spends_executionPrimitive (t : Token) {p : ExecutionPrimitive} (hp : ¬ p.Pushes) :
    (Execution.primitive t p).Spends levels := by
  cases p with
  | arithmetic op => exact spends_arithmetic op t
  | beginEnvironment => exact absurd trivial hp
  | beginGroup => exact (stays_beginGroup _ t).spends
  | closeEnvironment => exact spends_closeEnvironment t
  | color => exact spends_color
  | define everywhere expanded => exact spends_define everywhere expanded
  | endCsname => exact spends_fail _
  | endEnvironment => exact absurd trivial hp
  | endGroup => exact (stays_endGroup _ t).spends
  | href => exact spends_href
  | includeGraphics => exact spends_includeGraphics
  | letMeaning => exact spends_letMeaning
  | makeAt code => exact (stays_atSign code).spends
  | message => exact spends_message
  | newCommand policy => exact spends_defineCommand policy t
  | newEnvironment renew => exact spends_environment renew t
  | newIf => exact spends_newSwitch t
  | par => exact (stays_emit _).spends
  | modifier kind => exact spends_prefixModifier kind t
  | nameRegister kind => exact spends_nameRegister kind
  | relax => exact spends_pure _
  | switch change => exact (stays_mapSettings fun s => change.apply s).spends
  | styled change => exact absurd trivial hp
  | showMeaning => exact spends_showMeaning
  | textColor => exact absurd trivial hp
  | verb => exact spends_verb t

theorem stays_collect (t : Token) : (Execution.collect t).Stays :=
  stays_modify fun _ => ⟨rfl, rfl, rfl, rfl, rfl⟩

theorem spends_executionCharacter (t : Token) (category : CharCategory) (c : Char) :
    (Execution.character t category c).Spends levels := by
  refine .get_bind fun m => ?_
  cases m.handlers with
  | dropping => exact spends_pure _
  | writing => exact spends_typeset t category c
  | collecting _ => exact (stays_collect t).spends

theorem stays_undefined (t : Token) (ref : CommandRef) : (Execution.undefined t ref).Stays := by
  refine .get_bind fun m => ?_
  have hfault : (do
      let fault ← undefinedFault t
      if m.config.strictUndefined then fail fault
      else
        recoverable fault
        emit (.substituting ref.text "") : Run Unit).Stays := by
    refine (stays_undefinedFault t).bind fun f => ?_
    split
    · exact stays_fail f
    · exact (stays_recoverable f).bind fun _ => stays_emit _
  split
  · exact stays_collect t
  · exact (stays_undefinedFault t).bind fun f => stays_recoverable f
  · exact hfault
  · exact hfault

theorem stays_unexpanded (t : Token) : (Execution.unexpanded t).Stays := by
  refine .get_bind fun m => ?_
  cases m.handlers with
  | collecting _ => exact stays_collect t
  | _ => exact stays_pure _

theorem spends_processChar (t : Token) (category : CharCategory) (c : Char) :
    (Execution.processChar t category c).Spends levels := by
  cases category with
  | beginGroup => exact (stays_beginGroup _ t).spends
  | endGroup => exact (stays_endGroup _ t).spends
  | mathShift => exact spends_mathShift t
  | _ => exact spends_executionCharacter t _ c

end Run

end Gullet

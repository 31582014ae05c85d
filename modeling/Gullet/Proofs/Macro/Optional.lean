import Gullet.Proofs.Conditional.Testing
import Gullet.Proofs.Macro.Arguments
import Gullet.Proofs.Stream.Facing

/-!
# Commands with an optional argument

A command that is defined with a default for its first argument looks whether a bracket comes next. If so,
its first argument is what stands in the brackets, and else it is the default. Three expansions lead to the
replacement text: that of the command itself, that of `\@testopt`, which looks for the bracket, and that of
an inner macro which finds its first argument in brackets in either case.
-/

namespace Gullet

open Lexer (Item)

variable {b : Bindings} {t : Token} {m m' : Machine}

/-! ### Definitions -/

/-- What follows `\newcommand` in `\newcommand{\c}[n][D]{body}`. -/
structure CommandText where
  name : List Token
  count : List Token
  default : List Token
  body : List Token

/-- The tokens one after another. -/
def CommandText.tokens (d : CommandText) : List Token := d.name ++ (d.count ++ (d.default ++ d.body))

/-- The text says that a name becomes a command with the given number of arguments, the given default for
the first one and the given replacement text. -/
structure CommandText.Says (d : CommandText) (ref : CommandRef) (count : Nat) (default : List Token)
    (body : List BodyItem) : Prop where
  isName : ∃ c : Token, c.value = .command ref ∧ Token.Undelimited d.name [c]
  isCount : ∃ digit : Token, digit.value = .char .other (Nat.digitChar count) ∧
    Token.Bracketed d.count [digit]
  one_le : 1 ≤ count
  le_nine : count ≤ 9
  isDefault : Token.Bracketed d.default default
  isBody : Token.Undelimited d.body (body.flatMap BodyItem.tokens)
  items : ∀ item ∈ body, item.WellFormed count

namespace Definition

/-- A macro that finds its first argument in brackets. -/
structure TakesBrackets (mac : Macro) (count : Nat) (body : List BodyItem) : Prop where
  long : mac.long = true
  shielded : mac.shielded = false
  lead : mac.lead.map Token.value = [.char .other '[']
  parameters : mac.parameters =
    .delimited (.ofList [Token.closingBracket]) :: List.replicate (count - 1) .undelimited
  fill (arguments : List (List Token)) :
    Macro.fill mac.replacement arguments = body.flatMap (BodyItem.filled arguments)

theorem parameterCount?_digitChar {count : Nat} (hone : 1 ≤ count) (hnine : count ≤ 9) {digit : Token}
    (hdigit : digit.value = .char .other (Nat.digitChar count)) :
    parameterCount? (Token.write [digit]) = some count := by
  have hcounts : ∀ count < 9,
      parameterCount? (TokenValue.write [.char .other (Nat.digitChar (count + 1))]) = some (count + 1) := by
    decide
  obtain ⟨count, rfl⟩ := Nat.exists_eq_add_of_le' hone
  rw [Token.write, List.map_singleton, hdigit]
  exact hcounts count (by omega)

/-- The number of arguments and the default are read as they are written. -/
theorem signature_eval {d : CommandText} {ref : CommandRef} {count : Nat} {default : List Token}
    {body : List BodyItem} (hd : d.Says ref count default body) (hm : m.Steady b)
    (h : Stream.raw.Supplies (d.count ++ d.default) m m') (t : Token) :
    signature t m = (.ok { count, default := some default }, m') := by
  obtain ⟨m₁, hcount, hdefault⟩ := Stream.supplies_append.1 h
  obtain ⟨digit, hdigit, hbracketed⟩ := hd.isCount
  obtain ⟨k, hk⟩ := Nat.exists_eq_add_of_le' hd.one_le
  unfold signature
  rw [Run.bind_of_ok (Reader.optionalArgument_of_bracketed hbracketed hm hcount)]
  dsimp only
  rw [parameterCount?_digitChar hd.one_le hd.le_nine hdigit, hk]
  exact Run.bind_of_ok
    (Reader.optionalArgument_of_bracketed hd.isDefault (hm.supplies hcount) hdefault)

theorem commandName_eval {ref : CommandRef} {c : Token} {piece : List Token}
    (hv : c.value = .command ref) (hc : Token.Undelimited piece [c]) (hm : m.Steady b)
    (h : Stream.raw.Supplies piece m m') (t : Token) : commandName t m = (.ok ref, m') := by
  obtain ⟨value, key⟩ := c
  obtain rfl : value = .command ref := hv
  unfold commandName
  rw [Run.bind_of_ok (Reader.argument_of_undelimited hc hm h)]
  rfl

/-- The machine after a command with an optional argument has been bound as two macros. -/
def bindOptional (m : Machine) (ref : CommandRef) (key : SourceKey) (default : List Token)
    (mac : Macro) : Machine :=
  (m.change (.bound .inner (innerName ref) (.custom mac))).change
    (.bound .inner ref (.custom (dispatcher key (innerName ref) default)))

theorem innerName_ne (ref : CommandRef) : innerName ref ≠ ref := by
  cases ref with
  | controlSequence name =>
    intro h
    have hlength := congrArg String.length (CommandRef.controlSequence.inj h)
    have htext : (CommandRef.controlSequence name).text = "\\" ++ name := rfl
    rw [htext, String.length_append] at hlength
    have hone : "\\".length = 1 := rfl
    omega
  | active c => exact nofun

section

variable (m : Machine) (ref : CommandRef) (key : SourceKey) (default : List Token) (mac : Macro)

theorem lookup_bindOptional :
    (bindOptional m ref key default mac).lookup ref =
      .custom (dispatcher key (innerName ref) default) := by
  rw [bindOptional, Machine.lookup_change_bound, if_pos rfl]

theorem lookup_bindOptional_inner :
    (bindOptional m ref key default mac).lookup (innerName ref) = .custom mac := by
  rw [bindOptional, Machine.lookup_change_bound, if_neg (innerName_ne ref).symm,
    Machine.lookup_change_bound, if_pos rfl]

theorem lookup_bindOptional_other {other : CommandRef} (hne : other ≠ ref)
    (hinner : other ≠ innerName ref) :
    (bindOptional m ref key default mac).lookup other = m.lookup other := by
  rw [bindOptional, Machine.lookup_change_bound, if_neg hne.symm, Machine.lookup_change_bound,
    if_neg hinner.symm]

end

/-- A command with a default is bound as two macros. -/
theorem bindCounted_eval (ref : CommandRef) {count : Nat} (default : List Token)
    {body : List BodyItem} (hbody : ∀ item ∈ body, item.WellFormed count) (t : Token) (m : Machine) :
    ∃ mac, TakesBrackets mac count body ∧
      bindCounted t ref { count, default := some default } (body.flatMap BodyItem.tokens) true m =
        (.ok ⟨⟩, bindOptional m ref t.key default mac) := by
  obtain ⟨r, hr, hfill⟩ := Replacement.ofTokens_body hbody
  refine ⟨{ long := true
            replacement := r
            lead := [.char .other '[' t.key]
            parameters :=
              .delimited (.ofList [.char .other ']']) :: List.replicate (count - 1) .undelimited },
    ⟨rfl, rfl, rfl, rfl, hfill⟩, ?_⟩
  have hreplacement : orFail (Replacement.ofTokens count (body.flatMap BodyItem.tokens)) m = (.ok r, m) := by
    rw [hr]
    rfl
  unfold bindCounted
  rw [Run.bind_of_ok hreplacement]
  rfl

/-- What is read is bound to the name, or the name that stands for something already is reported. -/
theorem command_reads {d : CommandText} {ref : CommandRef} {count : Nat} {default : List Token}
    {body : List BodyItem} (hd : d.Says ref count default body) (hm : m.Steady b)
    (h : Stream.raw.Supplies d.tokens m m') (t : Token) :
    command .new t m =
      (if (b.lookup ref).isDefined then Run.recoverable (.commandExists t ref.text)
        else
          bindCounted t ref { count, default := some default } (body.flatMap BodyItem.tokens) true) m' := by
  obtain ⟨m₁, hname, hrest⟩ := Stream.supplies_append.1 h
  rw [← List.append_assoc] at hrest
  obtain ⟨m₂, hsignature, hbody⟩ := Stream.supplies_append.1 hrest
  obtain ⟨c, hv, hc⟩ := hd.isName
  have hstar (u : Token) (hu : [c] = [u]) : u.value ≠ .char .other '*' ∧ u.value ≠ .char .letter '*' := by
    obtain rfl := List.singleton_inj.1 hu
    rw [hv]
    exact ⟨nofun, nofun⟩
  obtain ⟨piece, m₀, hmodifier, hm₀, hpiece, hname⟩ := Reader.modifier_of_undelimited hc hstar hm hname
  have hm₁ := hm₀.supplies hname
  have hm₂ := hm₁.supplies hsignature
  have hlookup : m'.lookup ref = b.lookup ref :=
    congrArg (Bindings.lookup · ref) (hm₂.supplies hbody).bindings
  unfold command
  rw [Run.bind_of_ok hmodifier, Run.bind_of_ok (commandName_eval hv hpiece hm₀ hname t),
    Run.bind_of_ok (signature_eval hd hm₁ hsignature t),
    Run.bind_of_ok (Reader.argument_of_undelimited hd.isBody hm₂ hbody),
    Run.bind_of_ok (Run.lookup_eval ref m'), hlookup]
  cases (b.lookup ref).isDefined <;> rfl

/-- A name that stands for nothing becomes a command with an optional argument. -/
theorem command_eval {d : CommandText} {ref : CommandRef} {count : Nat} {default : List Token}
    {body : List BodyItem} (hd : d.Says ref count default body) (hm : m.Steady b)
    (hundefined : (b.lookup ref).isDefined = false) (h : Stream.raw.Supplies d.tokens m m') (t : Token) :
    ∃ mac, TakesBrackets mac count body ∧
      command .new t m = (.ok ⟨⟩, bindOptional m' ref t.key default mac) := by
  obtain ⟨mac, hmac, hbind⟩ := bindCounted_eval ref default hd.items t m'
  refine ⟨mac, hmac, ?_⟩
  rw [command_reads hd hm h, hundefined, if_neg Bool.false_ne_true]
  exact hbind

end Definition

/-! ### Calls of the two macros -/

namespace Definition

theorem call_dispatcher (key : SourceKey) (inner : CommandRef) (default : List Token) (t : Token)
    (m : Machine) :
    ∃ output, (dispatcher key inner default).call t m = (.ok ⟨⟩, ({ m with output } : Machine).push
      (.controlSequence "@testopt" key :: ⟨.command inner, key⟩ :: .char .beginGroup '\x7b' key ::
        (default ++ [.char .endGroup '\x7d' key]))) := by
  have hfill : Macro.fill (dispatcher key inner default).replacement [] =
      .controlSequence "@testopt" key :: ⟨.command inner, key⟩ :: .char .beginGroup '\x7b' key ::
        (default ++ [.char .endGroup '\x7d' key]) := by
    simp [Macro.fill, dispatcher]
  rw [← hfill]
  exact Macro.call_of_readArguments rfl rfl (List.forall_mem_nil _)

/-- The first argument is read up to the closing bracket, and the others after it. -/
theorem TakesBrackets.call_eval {mac : Macro} {count : Nat} {body : List BodyItem}
    (hmac : TakesBrackets mac count body) {bracket first : List Token} {pieces arguments : List (List Token)}
    (hfirst : Token.Bracketed bracket first) (hpieces : List.Forall₂ Token.Undelimited pieces arguments)
    (hcount : arguments.length + 1 = count) (hm : m.Steady b)
    (h : Stream.raw.Supplies (bracket ++ pieces.flatten) m m') (t : Token) :
    ∃ output, mac.call t m = (.ok ⟨⟩, ({ m' with output } : Machine).push
      (body.flatMap (BodyItem.filled (Macro.withoutBraces first :: arguments)))) := by
  obtain ⟨m₂, hbracket, hrest⟩ := Stream.supplies_append.1 h
  cases hfirst with
  | @intro left right first hl hr hbalanced hfree =>
    obtain ⟨m₁, hleft, hinside⟩ := hbracket
    have hlead : [left].map Token.value = mac.lead.map Token.value := by
      rw [hmac.lead, List.map_singleton, hl]
    have hmatch : Macro.matchLead t.value.spelling mac.lead m = (.ok ⟨⟩, m₁) :=
      Macro.matchLead_eval _ hlead (Stream.supplies_singleton.2 hleft)
    have hargument : Macro.readArgument 1 (.delimited (.ofList [Token.closingBracket])) m₁ =
        (.ok (Macro.withoutBraces first), m₂) :=
      Macro.delimitedArgument_of_bracketed 1 (.intro hl hr hbalanced hfree) (hm.raw hleft) hinside
    have hparameters : mac.parameters = .delimited (.ofList [Token.closingBracket]) ::
        List.replicate arguments.length .undelimited := by
      rw [hmac.parameters, ← hcount, Nat.add_sub_cancel]
    have harguments : Macro.readArguments 1 mac.parameters m₁ =
        (.ok (Macro.withoutBraces first :: arguments), m') := by
      rw [hparameters, Macro.readArguments_cons, Run.bind_of_ok hargument,
        Run.bind_of_ok (Macro.readArguments_of_undelimited 2 hpieces
          ((hm.raw hleft).supplies hinside) hrest)]
      rfl
    rw [← hmac.fill]
    exact Macro.call_of_long hmac.long hmatch harguments

end Definition

/-! ### Looking for a bracket -/

/-- The input ends here, or goes on with a token whose value has the property. -/
def NextIs (p : TokenValue → Prop) : List Item → Prop
  | [] => True
  | .ok t :: _ => p t.value
  | .error _ :: _ => False

theorem NextIs.imp {p q : TokenValue → Prop} (h : ∀ v, p v → q v) :
    ∀ {items : List Item}, NextIs p items → NextIs q items
  | [], _ => trivial
  | .ok t :: _, ht => h t.value ht

namespace Expansion

/-- A default value in braces, in brackets. -/
def bracketed (key : SourceKey) (default : List Token) : List Token :=
  .char .other '[' key :: (.char .beginGroup '\x7b' key :: (default ++ [.char .endGroup '\x7d' key]) ++
    [.char .other ']' key])

/-- What `\@testopt` does once it has read a command and a default value. -/
def offerDefault (t : Token) (target default : List Token) : Run Unit := do
  match ← Stream.raw.peek with
  | some ⟨.char .other '[', _⟩ => Run.pushTokens target
  | _ =>
    Run.pushTokens (target ++ [.char .other '[' t.key, .char .beginGroup '\x7b' t.key] ++ default ++
      [.char .endGroup '\x7d' t.key, .char .other ']' t.key])

theorem supplyDefault_eq (t : Token) : supplyDefault t = (do
    let target ← Reader.argument
    let default ← Reader.argument
    Stream.raw.skipSpaces
    offerDefault t target default) := rfl

end Expansion

namespace Machine.Facing

variable {m₀ : Machine} {items rest : List Item} {spaces default : List Token} {c : Token}
  {ref inner : CommandRef}

/-- Spaces are skipped up to what is none. -/
theorem skipSpaces (h : m₀.Facing (spaces.map .ok ++ items) m)
    (hspaces : ∀ s ∈ spaces, s.value.isSpace = true) (hnext : NextIs (·.isSpace = false) items) :
    ∃ m', Stream.raw.skipSpaces m = (.ok ⟨⟩, m') ∧ m₀.Facing items m' := by
  obtain ⟨m₁, hskip, h₁⟩ := h.supplies
  rw [Run.skipSpaces_of_spaces hspaces h.steady hskip]
  match items, hnext with
  | [], _ =>
    obtain ⟨m₂, hend, h₂⟩ := h₁.raw_end
    have htake : Stream.raw.takeSpace m₁ = (.ok false, m₂) := by
      unfold Stream.takeSpace Stream.take?
      rw [bind_assoc, Run.bind_of_ok hend]
      rfl
    refine ⟨m₂, Run.loop_of_answer ?_, h₂⟩
    rw [Run.bind_of_ok htake]
    rfl
  | .ok t :: rest, hspace =>
    obtain ⟨m₂, ht, h₂⟩ := h₁.raw
    exact ⟨_, Run.skipSpaces_of_some ht hspace, h₂.push [t]⟩

/-- The command and the default are read, and the spaces after them are skipped. -/
theorem supplyDefault_eval {target opener closer : Token}
    (h : m₀.Facing ((target :: opener :: (default ++ [closer])).map .ok ++ (spaces.map .ok ++ items)) m)
    (htarget : target.value = .command inner) (ho : opener.value.isBeginGroup = true)
    (hc : closer.value.isEndGroup = true) (hdefault : Token.Balanced default)
    (hspaces : ∀ s ∈ spaces, s.value.isSpace = true) (hnext : NextIs (·.isSpace = false) items)
    (t : Token) :
    ∃ m', m₀.Facing items m' ∧
      Expansion.supplyDefault t m = Expansion.offerDefault t [target] default m' := by
  obtain ⟨m₂, hread, h₂⟩ := h.supplies
  obtain ⟨m₁, ht, hgroup⟩ := hread
  obtain ⟨m₃, hskip, h₃⟩ := h₂.skipSpaces hspaces hnext
  have htoken : Token.Undelimited [target] [target] :=
    .ofToken (by rw [htarget]; rfl) (by rw [htarget]; rfl) (by rw [htarget]; rfl)
  have hbraces : Token.Undelimited (opener :: (default ++ [closer])) default :=
    .ofGroup ho hc hdefault
  refine ⟨m₃, h₃, ?_⟩
  rw [Expansion.supplyDefault_eq,
    Run.bind_of_ok (Reader.argument_of_undelimited htoken h.steady (Stream.supplies_singleton.2 ht)),
    Run.bind_of_ok (Reader.argument_of_undelimited hbraces (h.steady.raw ht) hgroup),
    Run.bind_of_ok hskip]

/-- If a bracket comes next, only the command is put in front of it. -/
theorem offerDefault_bracket {left : Token} (h : m₀.Facing (.ok left :: items) m)
    (hl : left.value = .char .other '[') (t target : Token) :
    ∃ m', Expansion.offerDefault t [target] default m = (.ok ⟨⟩, m') ∧
      m₀.Facing (.ok target :: .ok left :: items) m' := by
  obtain ⟨m₁, hpeek, h₁⟩ := h.peek
  obtain ⟨value, key⟩ := left
  obtain rfl : value = .char .other '[' := hl
  refine ⟨m₁.push [target], ?_, h₁.push [target]⟩
  unfold Expansion.offerDefault
  rw [Run.bind_of_ok hpeek]
  rfl

/-- If something else comes next, or nothing, the default in brackets and braces follows the command. -/
theorem offerDefault_other (h : m₀.Facing items m) (hnext : NextIs (· ≠ .char .other '[') items)
    (t target : Token) :
    ∃ m', Expansion.offerDefault t [target] default m = (.ok ⟨⟩, m') ∧
      m₀.Facing ((target :: Expansion.bracketed t.key default).map .ok ++ items) m' := by
  have hoffers {next : Option Token} {m₁ : Machine} (hpeek : Stream.raw.peek m = (.ok next, m₁))
      (hne : ∀ key, next ≠ some ⟨.char .other '[', key⟩) :
      Expansion.offerDefault t [target] default m =
        (.ok ⟨⟩, m₁.push (target :: Expansion.bracketed t.key default)) := by
    have htokens : target :: Expansion.bracketed t.key default =
        [target] ++ [.char .other '[' t.key, .char .beginGroup '\x7b' t.key] ++ default ++
          [.char .endGroup '\x7d' t.key, .char .other ']' t.key] := by
      simp [Expansion.bracketed]
    unfold Expansion.offerDefault
    rw [Run.bind_of_ok hpeek, htokens]
    split
    · exact absurd rfl (hne _)
    · rfl
  match items, hnext with
  | [], _ =>
    obtain ⟨m₁, hpeek, h₁⟩ := h.peek_end
    exact ⟨_, hoffers hpeek nofun, h₁.push (target :: Expansion.bracketed t.key default)⟩
  | .ok next :: rest, hvalue =>
    obtain ⟨m₁, hpeek, h₁⟩ := h.peek
    refine ⟨_, hoffers hpeek fun key hkey => ?_, h₁.push (target :: Expansion.bracketed t.key default)⟩
    obtain rfl := Option.some.inj hkey
    exact hvalue rfl

/-! ### The three expansions -/

variable {body : List BodyItem} {mac : Macro} {key : SourceKey} {count : Nat}

/-- The command gives way to `\@testopt`, with the inner command and the default in braces after it. -/
theorem main_dispatcher (h : m₀.Facing (.ok c :: items) m) (hv : c.value = .command ref)
    (hlookup : m₀.lookup ref = .custom (Definition.dispatcher key inner default))
    (hroom : m₀.expansions < m₀.config.maxExpansions) :
    ∃ m', Stream.main m = Stream.main m' ∧ (m₀.counting 1).Facing
      ((.controlSequence "@testopt" key :: ⟨.command inner, key⟩ :: .char .beginGroup '\x7b' key ::
        (default ++ [.char .endGroup '\x7d' key])).map .ok ++ items) m' := by
  refine h.main_custom hv hlookup rfl hroom fun m₁ h₁ => ?_
  obtain ⟨output, hcall⟩ := Definition.call_dispatcher key inner default c m₁
  exact ⟨_, hcall, (h₁.withOutput output).push _⟩

/-- `\@testopt` goes on to the inner command, which the spaces no longer follow. -/
theorem main_testopt {target opener closer : Token} {items' : List Item}
    (h : m₀.Facing (.ok t :: ((target :: opener :: (default ++ [closer])).map .ok ++
      (spaces.map .ok ++ items))) m)
    (hv : t.value = .command ref) (hlookup : m₀.lookup ref = .expansion .supplyDefault)
    (hroom : m₀.expansions < m₀.config.maxExpansions)
    (hdepth : m₀.expansionDepth < m₀.config.maxExpansionDepth)
    (htarget : target.value = .command inner) (ho : opener.value.isBeginGroup = true)
    (hc : closer.value.isEndGroup = true) (hdefault : Token.Balanced default)
    (hspaces : ∀ s ∈ spaces, s.value.isSpace = true) (hnext : NextIs (·.isSpace = false) items)
    (hoffer : ∀ m₁, (m₀.counting 1).deepened.Facing items m₁ →
      ∃ m₂, Expansion.offerDefault t [target] default m₁ = (.ok ⟨⟩, m₂) ∧
        (m₀.counting 1).deepened.Facing items' m₂) :
    ∃ m', Stream.main m = Stream.main m' ∧ (m₀.counting 1).Facing items' m' := by
  refine h.main_primitive hv hlookup hroom hdepth fun x m₁ h₁ => ?_
  obtain ⟨m₂, h₂, hsupply⟩ := h₁.supplyDefault_eval htarget ho hc hdefault hspaces hnext t
  obtain ⟨m₃, hm₃, h₃⟩ := hoffer m₂ h₂
  exact ⟨m₃, Conditional.quiet_eval (hsupply.trans hm₃), h₃⟩

/-- The inner command is called with what stands in the brackets and the arguments after them. -/
theorem main_inner {pieces arguments : List (List Token)} {bracket first : List Token}
    (h : m₀.Facing (.ok t :: ((bracket ++ pieces.flatten).map .ok ++ rest)) m)
    (hv : t.value = .command ref) (hlookup : m₀.lookup ref = .custom mac)
    (hroom : m₀.expansions < m₀.config.maxExpansions) (hmac : Definition.TakesBrackets mac count body)
    (hfirst : Token.Bracketed bracket first) (hpieces : List.Forall₂ Token.Undelimited pieces arguments)
    (hcount : arguments.length + 1 = count) :
    ∃ m', Stream.main m = Stream.main m' ∧ (m₀.counting 1).Facing
      ((body.flatMap (BodyItem.filled (Macro.withoutBraces first :: arguments))).map .ok ++ rest) m' := by
  refine h.main_custom hv hlookup hmac.shielded hroom fun m₁ h₁ => ?_
  obtain ⟨m₂, hread, h₂⟩ := h₁.supplies
  obtain ⟨output, hcall⟩ := hmac.call_eval hfirst hpieces hcount h₁.steady hread t
  exact ⟨_, hcall, (h₂.withOutput output).push _⟩

end Machine.Facing

/-! ### Calls of the command -/

/-- The machine knows a command with an optional argument, and there is room to expand it. -/
structure Machine.OffersDefault (m : Machine) (ref : CommandRef) (count : Nat) (default : List Token)
    (body : List BodyItem) : Prop where
  outer : ∃ key, m.lookup ref = .custom (Definition.dispatcher key (Definition.innerName ref) default)
  inner : ∃ mac, Definition.TakesBrackets mac count body ∧
    m.lookup (Definition.innerName ref) = .custom mac
  testopt : m.lookup (.controlSequence "@testopt") = .expansion .supplyDefault
  room : m.expansions + 3 ≤ m.config.maxExpansions
  depth : m.expansionDepth < m.config.maxExpansionDepth
  default : Token.Balanced default

namespace Machine.OffersDefault

variable {n : Machine} {c : Token} {ref : CommandRef} {count : Nat} {default spaces : List Token}
  {body : List BodyItem} {items rest : List Item} {pieces arguments : List (List Token)}

/-- The first two expansions lead to the inner command. -/
theorem main_to_inner (items' : SourceKey → List Item) (hn : n.OffersDefault ref count default body)
    (hv : c.value = .command ref)
    (hspaces : ∀ s ∈ spaces, s.value.isSpace = true) (hnext : NextIs (·.isSpace = false) items)
    (h : n.Facing (.ok c :: (spaces.map .ok ++ items)) m)
    (hoffer : ∀ (n' m₁ : Machine) (key : SourceKey), n'.Facing items m₁ →
      ∃ m₂, Expansion.offerDefault (.controlSequence "@testopt" key)
          [⟨.command (Definition.innerName ref), key⟩] default m₁ = (.ok ⟨⟩, m₂) ∧
        n'.Facing (.ok ⟨.command (Definition.innerName ref), key⟩ :: items' key) m₂) :
    ∃ key m', Stream.main m = Stream.main m' ∧
      (n.counting 2).Facing (.ok ⟨.command (Definition.innerName ref), key⟩ :: items' key) m' := by
  have hroom := hn.room
  obtain ⟨key, houter⟩ := hn.outer
  obtain ⟨m₁, hmain₁, h₁⟩ := h.main_dispatcher hv houter (by omega)
  have hroom₁ : (n.counting 1).expansions < (n.counting 1).config.maxExpansions := by
    show n.expansions + 1 < n.config.maxExpansions
    omega
  obtain ⟨m₂, hmain₂, h₂⟩ := h₁.main_testopt rfl hn.testopt hroom₁ hn.depth rfl rfl rfl hn.default
    hspaces hnext fun m₁ h₁ => hoffer _ m₁ key h₁
  exact ⟨key, m₂, hmain₁.trans hmain₂, h₂⟩

/-- The third expansion puts the replacement text in front of the rest. -/
theorem main_of_inner (hn : n.OffersDefault ref count default body) {t : Token}
    {bracket first : List Token} (hv : t.value = .command (Definition.innerName ref))
    (h : (n.counting 2).Facing (.ok t :: ((bracket ++ pieces.flatten).map .ok ++ rest)) m)
    (hfirst : Token.Bracketed bracket first) (hpieces : List.Forall₂ Token.Undelimited pieces arguments)
    (hcount : arguments.length + 1 = count) :
    ∃ m', Stream.main m = Stream.main m' ∧ (n.counting 3).Facing
      ((body.flatMap (BodyItem.filled (Macro.withoutBraces first :: arguments))).map .ok ++ rest) m' := by
  obtain ⟨mac, hmac, hinner⟩ := hn.inner
  exact h.main_inner hv hinner hn.room hmac hfirst hpieces hcount

/-- Without a bracket the first argument is the default. -/
theorem main_default (hn : n.OffersDefault ref count default body) (hv : c.value = .command ref)
    (hspaces : ∀ s ∈ spaces, s.value.isSpace = true)
    (hpieces : List.Forall₂ Token.Undelimited pieces arguments) (hcount : arguments.length + 1 = count)
    (hnext : NextIs (fun v => v.isSpace = false ∧ v ≠ .char .other '[')
      (pieces.flatten.map .ok ++ rest))
    (h : n.Facing (.ok c :: (spaces.map .ok ++ (pieces.flatten.map .ok ++ rest))) m) :
    ∃ m', Stream.main m = Stream.main m' ∧ (n.counting 3).Facing
      ((body.flatMap (BodyItem.filled (default :: arguments))).map .ok ++ rest) m' := by
  obtain ⟨key, m₁, hmain₁, h₁⟩ := main_to_inner
    (fun key => (Expansion.bracketed key default).map .ok ++ (pieces.flatten.map .ok ++ rest))
    hn hv hspaces (hnext.imp fun _ hv => hv.1) h fun n' m₁ key h₁ =>
      h₁.offerDefault_other (hnext.imp fun _ hv => hv.2) _ _
  rw [← List.append_assoc, ← List.map_append] at h₁
  -- Brackets in the default stand in the braces around it, so none of them ends the argument.
  have hbracketed : Token.Bracketed (Expansion.bracketed key default)
      (.char .beginGroup '\x7b' key :: (default ++ [.char .endGroup '\x7d' key])) :=
    .intro rfl rfl (.group rfl rfl hn.default .nil) (Token.onlyInBraces_group rfl rfl rfl rfl hn.default)
  obtain ⟨m₂, hmain₂, h₂⟩ := hn.main_of_inner rfl h₁ hbracketed hpieces hcount
  rw [Macro.withoutBraces_of_group rfl rfl hn.default] at h₂
  exact ⟨m₂, hmain₁.trans hmain₂, h₂⟩

/-- Where a bracket comes next the first argument is what stands in the brackets. -/
theorem main_bracketed (hn : n.OffersDefault ref count default body) {bracket first : List Token}
    (hv : c.value = .command ref) (hspaces : ∀ s ∈ spaces, s.value.isSpace = true)
    (hfirst : Token.Bracketed bracket first) (hpieces : List.Forall₂ Token.Undelimited pieces arguments)
    (hcount : arguments.length + 1 = count)
    (h : n.Facing (.ok c :: (spaces.map .ok ++ ((bracket ++ pieces.flatten).map .ok ++ rest))) m) :
    ∃ m', Stream.main m = Stream.main m' ∧ (n.counting 3).Facing
      ((body.flatMap (BodyItem.filled (Macro.withoutBraces first :: arguments))).map .ok ++ rest) m' := by
  obtain ⟨left, inside, hbracket, hl⟩ :
      ∃ left inside, bracket = left :: inside ∧ left.value = .char .other '[' := by
    cases hfirst with
    | intro hl => exact ⟨_, _, rfl, hl⟩
  have hnext : NextIs (·.isSpace = false) ((bracket ++ pieces.flatten).map .ok ++ rest) := by
    rw [hbracket]
    show left.value.isSpace = false
    rw [hl]
    rfl
  obtain ⟨key, m₁, hmain₁, h₁⟩ := main_to_inner
    (fun _ => (bracket ++ pieces.flatten).map .ok ++ rest) hn hv hspaces hnext h fun n' m₁ key h₁ => by
      rw [hbracket] at h₁ ⊢
      exact h₁.offerDefault_bracket hl _ _
  obtain ⟨m₂, hmain₂, h₂⟩ := hn.main_of_inner rfl h₁ hfirst hpieces hcount
  exact ⟨m₂, hmain₁.trans hmain₂, h₂⟩

end Machine.OffersDefault

/-- Once a command with an optional argument has been bound, it can be called. -/
theorem Machine.Facing.offersDefault {m₀ m : Machine} {items : List Item} {ref : CommandRef} {count : Nat}
    {default : List Token} {body : List BodyItem} {mac : Macro} (h : m₀.Facing items m)
    (htestopt : m₀.lookup (.controlSequence "@testopt") = .expansion .supplyDefault)
    (hne : .controlSequence "@testopt" ≠ ref)
    (hinner : .controlSequence "@testopt" ≠ Definition.innerName ref)
    (hroom : m₀.expansions + 3 ≤ m₀.config.maxExpansions)
    (hdepth : m₀.expansionDepth < m₀.config.maxExpansionDepth)
    (hmac : Definition.TakesBrackets mac count body) (hdefault : Token.Balanced default)
    (key : SourceKey) :
    (Definition.bindOptional m ref key default mac).OffersDefault ref count default body where
  outer := ⟨key, Definition.lookup_bindOptional m ref key default mac⟩
  inner := ⟨mac, hmac, Definition.lookup_bindOptional_inner m ref key default mac⟩
  testopt := by
    rw [Definition.lookup_bindOptional_other m ref key default mac hne hinner, h.lookup]
    exact htestopt
  room := by
    show m.expansions + 3 ≤ m.config.maxExpansions
    rw [h.same]
    exact hroom
  depth := by
    show m.expansionDepth < m.config.maxExpansionDepth
    rw [h.same]
    exact hdepth
  default := hdefault

namespace Definition

/-- **Commands with an optional argument.** Where a name that stands for nothing is defined as a command
with a default for its first argument, a call expands in three steps to the replacement text. If the next
token after spaces is no bracket, the default, unchanged, stands in it for the first argument. If what comes
next is text in brackets, this text stands for it, without its braces exactly if it is a single group. For
the other arguments stand those that follow. -/
theorem command_optional {d : CommandText} {ref : CommandRef} {count : Nat} {default : List Token}
    {body : List BodyItem} (hd : d.Says ref count default body) {m m' : Machine}
    (hm : Input.Accounted m.input.sources) (hundefined : (m.lookup ref).isDefined = false)
    (h : Stream.raw.Supplies d.tokens m m') (t : Token) :
    ∃ m₁, command .new t m = (.ok ⟨⟩, m₁) ∧
      m₁ = { m' with scopes := m₁.scopes, history := m₁.history } ∧
      (∀ other, other ≠ ref → other ≠ innerName ref → m₁.lookup other = m.lookup other) ∧
      ∀ (n : Machine) (c : Token) (spaces : List Token) (pieces arguments : List (List Token))
        (rest : List Item),
        n.lookup ref = m₁.lookup ref → n.lookup (innerName ref) = m₁.lookup (innerName ref) →
        n.lookup (.controlSequence "@testopt") = .expansion .supplyDefault →
        n.expansions + 3 ≤ n.config.maxExpansions → n.expansionDepth < n.config.maxExpansionDepth →
        c.value = .command ref → (∀ s ∈ spaces, s.value.isSpace = true) →
        List.Forall₂ Token.Undelimited pieces arguments → arguments.length + 1 = count →
        (NextIs (fun v => v.isSpace = false ∧ v ≠ .char .other '[')
            (pieces.flatten.map .ok ++ rest) →
          n.Facing (.ok c :: (spaces.map .ok ++ (pieces.flatten.map .ok ++ rest))) n →
          ∃ n', Stream.main n = Stream.main n' ∧ (n.counting 3).Facing
            ((body.flatMap (BodyItem.filled (default :: arguments))).map .ok ++ rest) n') ∧
        ∀ bracket x, Token.Bracketed bracket x →
          n.Facing (.ok c :: (spaces.map .ok ++ ((bracket ++ pieces.flatten).map .ok ++ rest))) n →
          ∃ first n', Token.Bared x first ∧ Stream.main n = Stream.main n' ∧ (n.counting 3).Facing
            ((body.flatMap (BodyItem.filled (first :: arguments))).map .ok ++ rest) n' := by
  have hsteady : m.Steady m.scopes.bindings := ⟨rfl, hm⟩
  obtain ⟨mac, hmac, hcommand⟩ := command_eval hd hsteady hundefined h t
  have hlookup (other : CommandRef) : m'.lookup other = m.lookup other :=
    congrArg (Bindings.lookup · other) (hsteady.supplies h).bindings
  refine ⟨_, hcommand, rfl, fun other hne hinner => ?_, ?_⟩
  · rw [lookup_bindOptional_other _ _ _ _ _ hne hinner, hlookup]
  intro n c spaces pieces arguments rest houter hinner htestopt hroom hdepth hv hspaces hpieces hcount
  rw [lookup_bindOptional] at houter
  rw [lookup_bindOptional_inner] at hinner
  have hn : n.OffersDefault ref count default body :=
    ⟨⟨_, houter⟩, ⟨mac, hmac, hinner⟩, htestopt, hroom, hdepth, hd.isDefault.balanced⟩
  refine ⟨fun hnext hfacing => hn.main_default hv hspaces hpieces hcount hnext hfacing, ?_⟩
  intro bracket x hx hfacing
  obtain ⟨n', hmain, hn'⟩ := hn.main_bracketed hv hspaces hx hpieces hcount hfacing
  have hdepth : Token.depth x = 0 := Token.depth_of_balanced hx.balanced
  exact ⟨_, n', Macro.bared_withoutBraces hdepth, hmain, hn'⟩

/-! ### Samples -/

/-- Tokens in brackets that belong to no source. -/
def inBrackets (ts : List Token) : List Token := other '[' :: (ts ++ [other ']'])

/-- The text `{name}[count][default]body`. -/
def commandText (name : String) (count : Nat) (default body : List Token) : CommandText where
  name := inBraces [.named name]
  count := inBrackets [other (Nat.digitChar count)]
  default := inBrackets default
  body := body

theorem says_commandText (name : String) (count : Nat) (hone : 1 ≤ count) (hnine : count ≤ 9)
    {default written : List Token} (hdefault : Token.Balanced default)
    (hfree : Token.OnlyInBraces Token.closingBracket default) {body : List BodyItem}
    (hwritten : Token.Undelimited written (body.flatMap BodyItem.tokens))
    (hitems : ∀ item ∈ body, item.WellFormed count) :
    (commandText name count default written).Says (.controlSequence name) count default body where
  isName := ⟨.named name, rfl,
    .ofGroup rfl rfl (.token rfl rfl .nil)⟩
  isCount := by
    have hdigits : ∀ count < 10, Nat.digitChar count ≠ ']' := by decide
    refine ⟨other (Nat.digitChar count), rfl, .intro rfl rfl (.token rfl rfl .nil) ?_⟩
    refine Token.onlyInBraces_of_ne fun t ht hv => ?_
    rw [List.mem_singleton.1 ht] at hv
    exact hdigits count (by omega) (TokenValue.char.inj hv).2
  one_le := hone
  le_nine := hnine
  isDefault := .intro rfl rfl hdefault hfree
  isBody := hwritten
  items := hitems

end Definition

/-- The standard machine's input, which is empty, can be gone on with. -/
theorem Machine.facing_of_input {m : Machine} (hinput : m.input = Machine.ready.input)
    (hgoing : m.cancellation.raised = false) : m.Facing [] m where
  same := rfl
  remaining := by
    unfold Machine.remaining
    rw [hinput]
    rfl
  accounted := by
    rw [hinput]
    exact Machine.accounted_ready []
  expanding := by
    unfold Machine.Expanding
    rw [hinput]
    intro mode hmode
    cases hmode
  going := hgoing

namespace Definition

/-- After `\newcommand{\a}[2][b]{#2#1}`, `\a c` leaves `cb`, and `\a[{d}]c` leaves `cd`. -/
theorem command_optional_flipped :
    let body := inBraces [mark, other '2', mark, other '1']
    ∃ m₁, command .new (.named "newcommand")
        (Machine.ready.push (commandText "a" 2 [letter 'b'] body).tokens) = (.ok ⟨⟩, m₁) ∧
      (∃ m', Stream.main (m₁.push [.named "a", letter 'c']) = Stream.main m' ∧
        m'.remaining = [.ok (letter 'c'), .ok (letter 'b')]) ∧
      ∃ m', Stream.main (m₁.push (.named "a" :: (inBrackets (inBraces [letter 'd']) ++ [letter 'c']))) =
          Stream.main m' ∧ m'.remaining = [.ok (letter 'c'), .ok (letter 'd')] := by
  intro body
  let items : List BodyItem := [.parameter mark (other '2') 1, .parameter mark (other '1') 0]
  have hbalanced (c : Char) : Token.Balanced [letter c] := .token rfl rfl .nil
  have hfree : Token.OnlyInBraces Token.closingBracket [letter 'b'] := Token.onlyInBraces_of_ne (by decide)
  have hitems : ∀ item ∈ items, item.WellFormed 2 := by
    simp only [items, List.forall_mem_cons]
    exact ⟨⟨⟨_, rfl⟩, ⟨_, _, rfl, by decide, rfl⟩, by decide⟩,
      ⟨⟨_, rfl⟩, ⟨_, _, rfl, by decide, rfl⟩, by decide⟩, List.forall_mem_nil _⟩
  have hwritten : Token.Undelimited body (items.flatMap BodyItem.tokens) :=
    .ofGroup rfl rfl (Token.balanced_of_no_braces (by decide))
  have hsays := says_commandText "a" 2 (by decide) (by decide) (hbalanced 'b') hfree hwritten hitems
  have hundefined : Machine.ready.lookup (.controlSequence "a") = .undefined :=
    Machine.lookup_standard_of_not_contains (by decide)
  let text := (commandText "a" 2 [letter 'b'] body).tokens
  obtain ⟨m₁, hcommand, hm₁, hothers, hcalls⟩ := command_optional hsays (Machine.accounted_ready text)
    (congrArg Command.isDefined hundefined) (Stream.supplies_push Machine.readable_ready text)
    (.named "newcommand")
  have hfacing : m₁.Facing [] m₁ := Machine.facing_of_input (by rw [hm₁]) (by rw [hm₁]; rfl)
  have htestopt : m₁.lookup (.controlSequence "@testopt") = .expansion .supplyDefault := by
    rw [hothers _ (by decide) (by decide)]
    exact Machine.lookup_standard_of_find? (by cbv)
  have hroom : m₁.expansions + 3 ≤ m₁.config.maxExpansions := by
    rw [hm₁]
    show Machine.ready.expansions + 3 ≤ Machine.ready.config.maxExpansions
    decide
  have hdepth : m₁.expansionDepth < m₁.config.maxExpansionDepth := by
    rw [hm₁]
    show Machine.ready.expansionDepth < Machine.ready.config.maxExpansionDepth
    decide
  have hletter (c : Char) : Token.Undelimited [letter c] [letter c] :=
    .ofToken rfl rfl rfl
  refine ⟨m₁, hcommand, ?_, ?_⟩
  · let call : List Token := [.named "a", letter 'c']
    obtain ⟨hdefault, -⟩ := hcalls (m₁.push call) (.named "a") [] [[letter 'c']] [[letter 'c']] []
      rfl rfl htestopt hroom hdepth rfl (List.forall_mem_nil _) (.cons (hletter 'c') .nil) rfl
    obtain ⟨m', hmain, hm'⟩ := hdefault ⟨rfl, by decide⟩ (hfacing.push call).self
    exact ⟨m', hmain, hm'.remaining⟩
  · have hbracketed : Token.Bracketed (inBrackets (inBraces [letter 'd'])) (inBraces [letter 'd']) :=
      .intro rfl rfl (.group rfl rfl (hbalanced 'd') .nil)
        (Token.onlyInBraces_group rfl rfl rfl rfl (hbalanced 'd'))
    let call : List Token := .named "a" :: (inBrackets (inBraces [letter 'd']) ++ [letter 'c'])
    obtain ⟨-, hbracket⟩ := hcalls (m₁.push call) (.named "a") [] [[letter 'c']] [[letter 'c']] []
      rfl rfl htestopt hroom hdepth rfl (List.forall_mem_nil _) (.cons (hletter 'c') .nil) rfl
    obtain ⟨first, m', hfirst, hmain, hm'⟩ := hbracket _ _ hbracketed (hfacing.push call).self
    obtain rfl := hfirst.eq_of_group rfl rfl (hbalanced 'd')
    exact ⟨m', hmain, hm'.remaining⟩

/-- A name that stands for something already is reported, and only written about. -/
theorem command_of_defined {d : CommandText} {ref : CommandRef} {count : Nat} {default : List Token}
    {body : List BodyItem} (hd : d.Says ref count default body) (hm : m.Steady b)
    (hdefined : (b.lookup ref).isDefined = true) (h : Stream.raw.Supplies d.tokens m m')
    (hreport : m'.policy.recovery = .report) (t : Token) :
    ∃ output, command .new t m = (.ok ⟨⟩, { m' with output }) := by
  rw [command_reads hd hm h, if_pos hdefined]
  unfold Run.recoverable
  rw [Run.get_bind_eval, hreport]
  exact ⟨_, rfl⟩

/-- After `\newcommand{\a}[1][b]]{x}`, where the default ends at the first bracket, `\a` leads to `]`. And
`\newcommand{\relax}[1][b]{x}` does not define `\relax`, which stands for something already. -/
theorem command_optional_exceptions :
    (Token.Balanced [letter 'b', other ']'] ∧
      ∃ m₁ m₂, command .new (.named "newcommand") (Machine.ready.push
          (commandText "a" 1 [letter 'b', other ']'] (inBraces [letter 'x'])).tokens) = (.ok ⟨⟩, m₁) ∧
        Stream.main (m₁.push [.named "a"]) = (.ok (some (other ']')), m₂)) ∧
      ∃ m₁ m₂, command .new (.named "newcommand") (Machine.ready.push
          (commandText "relax" 1 [letter 'b'] (inBraces [letter 'x'])).tokens) = (.ok ⟨⟩, m₁) ∧
        Stream.main (m₁.push [.named "relax"]) = (.ok (some (.named "relax")), m₂) := by
  have hbalanced : Token.Balanced [letter 'b'] := .token rfl rfl .nil
  have hfree : Token.OnlyInBraces Token.closingBracket [letter 'b'] := Token.onlyInBraces_of_ne (by decide)
  have hready : Machine.ready.Facing [] Machine.ready := Machine.facing_of_input rfl rfl
  have hsteady (ts : List Token) : (Machine.ready.push ts).Steady Machine.ready.scopes.bindings :=
    ⟨rfl, Machine.accounted_ready ts⟩
  have htoken (t : Token) (ht : ∀ c, t.value ≠ .char .parameter c) :
      ∀ item ∈ [BodyItem.token t], item.WellFormed 1 := by
    simp only [List.forall_mem_cons]
    exact ⟨ht, List.forall_mem_nil _⟩
  refine ⟨⟨Token.balanced_of_no_braces (by decide), ?_⟩, ?_⟩
  · -- what the text says is another default and another replacement text
    have hbracket : Token.Undelimited [other ']']
        ([.token (other ']')].flatMap BodyItem.tokens) := .ofToken rfl rfl rfl
    have hsays := says_commandText "a" 1 (by decide) (by decide) hbalanced hfree hbracket
      (htoken _ nofun)
    have hundefined : Machine.ready.lookup (.controlSequence "a") = .undefined :=
      Machine.lookup_standard_of_not_contains (by decide)
    let text := (commandText "a" 1 [letter 'b', other ']'] (inBraces [letter 'x'])).tokens
    let rest : List Item := (inBraces [letter 'x']).map .ok
    have hfacing : Machine.ready.Facing
        ((commandText "a" 1 [letter 'b'] [other ']']).tokens.map .ok ++ rest)
        (Machine.ready.push text) := hready.push text
    obtain ⟨m', hsupplies, hm'⟩ := hfacing.supplies
    obtain ⟨mac, hmac, hcommand⟩ := command_eval hsays (hsteady _) (congrArg Command.isDefined hundefined)
      hsupplies (.named "newcommand")
    let m₁ := bindOptional m' (.controlSequence "a") none [letter 'b'] mac
    have hm₁ : m₁.Facing rest m₁ := ((hm'.change_bound _ _ _).change_bound _ _ _).self
    have hoffers : m₁.OffersDefault (.controlSequence "a") 1 [letter 'b'] [.token (other ']')] :=
      hm'.offersDefault (Machine.lookup_standard_of_find? (by cbv)) (by decide) (by decide) (by decide)
        (by decide) hmac hbalanced none
    let after : List Item := ([] : List (List Token)).flatten.map .ok ++ rest
    have hcall : m₁.Facing (.ok (.named "a") :: (([] : List Token).map .ok ++ after))
        (m₁.push [.named "a"]) := hm₁.push [.named "a"]
    have hnext : NextIs (fun v => v.isSpace = false ∧ v ≠ .char .other '[') after := ⟨rfl, by decide⟩
    obtain ⟨n, hmain, hn⟩ := hoffers.main_default rfl (List.forall_mem_nil _) .nil rfl hnext hcall
    obtain ⟨m₂, hraw, -⟩ := hn.raw
    exact ⟨m₁, m₂, hcommand, hmain.trans (Run.expanded_of_char hraw rfl)⟩
  · have hletter : Token.Undelimited (inBraces [letter 'x'])
        ([.token (letter 'x')].flatMap BodyItem.tokens) := .ofGroup rfl rfl (.token rfl rfl .nil)
    have hsays := says_commandText "relax" 1 (by decide) (by decide) hbalanced hfree hletter
      (htoken _ nofun)
    have hrelax : Machine.ready.lookup (.controlSequence "relax") = .execution .relax :=
      Machine.lookup_standard_of_find? (by cbv)
    obtain ⟨output, hcommand⟩ := command_of_defined hsays (hsteady _) (congrArg Command.isDefined hrelax)
      (Stream.supplies_push Machine.readable_ready _) rfl (.named "newcommand")
    have hreadable : ({ Machine.ready with output } : Machine).Readable := ⟨rfl, List.cons_ne_nil _ _⟩
    refine ⟨_, _, hcommand, Run.expanded_push hreadable ?_ []⟩
    intro ref hv
    cases hv
    exact congrArg (Stream.expands _) hrelax

end Definition

end Gullet

import Gullet.Proofs.Conditional.Testing
import Gullet.Proofs.Macro.Collecting
import Gullet.Proofs.Session.Ending

/-!
# Macros that are bound

Whatever has been defined, every macro on a machine that arises is well formed, those included that come
back when groups are closed. In particular its replacement text is cut into pieces in the only way in which
it can be merged. So to compare macros piece by piece, as `\ifx` does, is to compare the replacement texts
token by token.
-/

namespace Gullet

/-- **Every macro is well formed** on a machine that arises, now and once groups are closed. -/
theorem Machine.Arises.wellFormed_macros {m : Machine} (hm : m.Arises) :
    m.scopes.bindings.Always fun command => ∀ mac, command = .custom mac → mac.WellFormed := by
  have hsound := hm.isSound.bindings
  have hmacro {command : Command} (h : command.WellFormed) (mac : Macro) (heq : command = .custom mac) :
      mac.WellFormed := by
    rw [heq] at h
    exact h
  exact ⟨fun k v hv => hmacro (hsound.visible k v hv),
    fun log hlog k v hv => hmacro (hsound.undo log hlog k v hv)⟩

namespace Definition

/-- A definition that comes next on a machine that arises leads to another one. -/
theorem arises_define {m : Machine} (hm : m.Arises) (hgoing : m.Readable) {d : DefinitionText}
    (hd : d.WellFormed) (name : Token) {ref : CommandRef} (hv : name.value = .command ref) :
    ∃ mac scope, d.Describes mac ∧ mac.long = m.prefixes.long ∧ mac.shielded = m.prefixes.shielded ∧
      (m.unprefixed.change (.bound scope ref (.custom mac))).Arises := by
  have hpush : (m.push (name :: d.tokens)).Arises := hm.act (Run.isExecution_pushTokens (name :: d.tokens))
  obtain ⟨mac, hmac, hlong, hshielded, hdefine⟩ := define_eval hd hv ⟨rfl, hpush.reachable.accounted.1⟩
    (Stream.supplies_push hgoing (name :: d.tokens)) false
  have hdefined := hpush.act (Run.isExecution_define false false)
  rw [hdefine] at hdefined
  exact ⟨mac, _, hmac, hlong, hshielded, hdefined⟩

end Definition

/-- A name that stands for a macro has been bound to it. -/
theorem Bindings.get?_of_lookup {b : Bindings} {ref : CommandRef} {mac : Macro}
    (h : b.lookup ref = .custom mac) : b.get? ref = some (.custom mac) := by
  unfold lookup at h
  cases hget : b.get? ref with
  | none =>
    rw [hget] at h
    cases h
  | some command =>
    rw [hget] at h
    exact congrArg some h

/-- After `\def\a#1{(#1)}`, the macro `\a` is well formed. -/
theorem Machine.Arises.wellFormed_macros_parenthesize :
    ∃ (m : Machine) (mac : Macro), m.Arises ∧ m.lookup (.controlSequence "a") = .custom mac ∧
      mac.parameters.length = 1 ∧ mac.WellFormed := by
  have hready : Machine.ready.Arises := .act .standard (Run.isExecution_pushTokens [])
  obtain ⟨mac, scope, hmac, -, -, harises⟩ := Definition.arises_define hready
    Machine.readable_ready Definition.wellFormed_parenthesize (.named "a") rfl
  have hlookup : (Machine.ready.unprefixed.change (.bound scope (.controlSequence "a") (.custom mac))).lookup
      (.controlSequence "a") = .custom mac := by
    rw [Machine.lookup_change_bound, if_pos rfl]
  refine ⟨_, mac, harises, hlookup, by rw [hmac.parameters]; rfl, ?_⟩
  exact (Machine.Arises.wellFormed_macros harises).get? (Bindings.get?_of_lookup hlookup) mac rfl

/-! ### Comparing macros -/

namespace Replacement

/-- The values of the tokens of a piece, or its parameter. -/
def items (piece : Replacement) : List (TokenValue ⊕ Nat) :=
  piece.values.elim (List.map .inl) fun index => [.inr index]

/-- One more value in front of pieces, put to a run if they begin with one. -/
def consValue (v : TokenValue) : List (List TokenValue ⊕ Nat) → List (List TokenValue ⊕ Nat)
  | .inl vs :: rest => .inl (v :: vs) :: rest
  | rest => .inl [v] :: rest

/-- The pieces into which values and parameters are merged. -/
def gather : List (TokenValue ⊕ Nat) → List (List TokenValue ⊕ Nat)
  | [] => []
  | .inl v :: rest => consValue v (gather rest)
  | .inr index :: rest => .inr index :: gather rest

theorem gather_run {vs : List TokenValue} {rest : List (TokenValue ⊕ Nat)} (hvs : vs ≠ [])
    (hrest : ∀ us pieces, gather rest ≠ .inl us :: pieces) :
    gather (vs.map .inl ++ rest) = .inl vs :: gather rest := by
  induction vs with
  | nil => exact absurd rfl hvs
  | cons v vs ih =>
    rw [List.map_cons, List.cons_append, gather]
    cases vs with
    | nil =>
      unfold consValue
      split
      · rename_i us pieces heq
        exact absurd heq (hrest us pieces)
      · rfl
    | cons u us =>
      rw [ih (List.cons_ne_nil u us)]
      rfl

/-- A merged replacement text is found again from its tokens and parameters. -/
theorem gather_items {r : List Replacement} (h : IsMerged r) :
    gather (r.flatMap items) = r.map values := by
  induction r with
  | nil => rfl
  | cons piece rest ih =>
    obtain ⟨hhead, hapart⟩ := List.isChain_cons.1 h.apart
    obtain ⟨hpiece, hrest⟩ := not_or.1 (mt List.mem_cons.2 h.nonempty)
    have hgather := ih ⟨hrest, hapart⟩
    rw [List.flatMap_cons, List.map_cons]
    cases piece with
    | parameter index =>
      show .inr index :: gather (rest.flatMap items) = _
      rw [hgather]
      rfl
    | tokens ts =>
      have hts : ts.map Token.value ≠ [] := fun hnil => hpiece (List.map_eq_nil_iff.1 hnil ▸ rfl)
      -- the piece after a run is a parameter, if there is one
      have hnext (vs : List TokenValue) (pieces : List (List TokenValue ⊕ Nat)) :
          gather (rest.flatMap items) ≠ .inl vs :: pieces := by
        rw [hgather]
        cases rest with
        | nil => simp
        | cons next rest =>
          cases next with
          | tokens us => exact (hhead (.tokens us) rfl).elim
          | parameter index => simp [values]
      show gather ((ts.map Token.value).map .inl ++ rest.flatMap items) = _
      rw [gather_run hts hnext, hgather]
      rfl

/-- Merged replacement texts are the same piece by piece exactly if they are token by token. -/
theorem values_eq_iff {r r' : List Replacement} (h : IsMerged r) (h' : IsMerged r') :
    r.map values = r'.map values ↔ r.flatMap items = r'.flatMap items := by
  have hitems (r : List Replacement) : r.flatMap items =
      (r.map values).flatMap (Sum.elim (List.map .inl) fun index => [.inr index]) := by
    rw [List.flatMap_map]
    rfl
  refine ⟨fun hvalues => ?_, fun h => ?_⟩
  · rw [hitems r, hitems r', hvalues]
  · rw [← gather_items ‹IsMerged r›, h, gather_items h']

end Replacement

/-- The macros have the same flags, the same tokens after the name, as many parameters with the same
delimiters, and replacement texts that are the same sequence of tokens and parameters. The places of tokens
do not matter. -/
structure Macro.Agrees (a b : Macro) : Prop where
  long : a.long = b.long
  shielded : a.shielded = b.shielded
  lead : a.lead.map Token.value = b.lead.map Token.value
  delimiters : a.parameters.map Parameter.delimiter? = b.parameters.map Parameter.delimiter?
  replacement : a.replacement.flatMap Replacement.items = b.replacement.flatMap Replacement.items

theorem Macro.same_iff {a b : Macro} (ha : a.WellFormed) (hb : b.WellFormed) :
    a.same b = true ↔ a.Agrees b := by
  have hreplacement := Replacement.values_eq_iff ha.replacement.merged hb.replacement.merged
  rw [same, decide_eq_true_iff]
  constructor
  · intro h
    rw [content, content, Content.mk.injEq] at h
    obtain ⟨hlong, hshielded, hlead, hdelimiters, hvalues⟩ := h
    exact ⟨hlong, hshielded, hlead, hdelimiters, hreplacement.1 hvalues⟩
  · intro h
    rw [content, content, h.long, h.shielded, h.lead, h.delimiters, hreplacement.2 h.replacement]

/-- **Macros are compared token by token.** Let two macros be bound on machines that arise. Where `\ifx`
finds two tokens that stand for them, on any machine, it goes on after these as `\iftrue` does if the macros
agree, and as `\iffalse` does if not. -/
theorem Conditional.ifSame_macros {m m' : Machine} (hm : m.Arises) (hm' : m'.Arises)
    {ref ref' : CommandRef} {mac mac' : Macro} (hmac : m.lookup ref = .custom mac)
    (hmac' : m'.lookup ref' = .custom mac') {n n' : Machine} (hn : Input.Accounted n.input.sources)
    {first second : Token} (hfirst : n.scopes.bindings.meaningOf first.value = .custom mac)
    (hsecond : n.scopes.bindings.meaningOf second.value = .custom mac')
    (h : Stream.raw.Supplies [first, second] n n') (x : Expander) (t : Token) :
    ∃ agree : Bool, (agree = true ↔ mac.Agrees mac') ∧
      Expansion.primitive x t .ifSame n =
        Expansion.primitive x t (if agree then .ifTrue else .ifFalse) n' := by
  have hwell {m : Machine} {ref : CommandRef} {mac : Macro} (hm : m.Arises)
      (hmac : m.lookup ref = .custom mac) : mac.WellFormed := by
    have hcommand : (m.lookup ref).WellFormed := hm.isSound.wellFormed_lookup ref
    rwa [hmac] at hcommand
  refine ⟨mac.same mac', Macro.same_iff (hwell hm hmac) (hwell hm' hmac'), ?_⟩
  have hagree := Test.meaningsAgree_eval ⟨rfl, hn⟩ h
  rw [hfirst, hsecond] at hagree
  have hchoose (agree : Bool) : Expansion.primitive x t (if agree then .ifTrue else .ifFalse) =
      Expansion.primitive.quiet (Conditional.choose t agree) := by
    cases agree <;> rfl
  rw [hchoose]
  show Expansion.primitive.quiet (do Conditional.choose t (← Conditional.meaningsAgree)) n = _
  unfold Expansion.primitive.quiet
  rw [bind_assoc, Run.bind_of_ok hagree]
  rfl

/-- The definition `#1{(#1)}`, where the first bracket is read from a place in a source. -/
def Definition.parenthesizeAt (key : SourceKey) : DefinitionText :=
  { parenthesize with
    body := [.token (.char .other '(' key), .parameter mark (other '1') 0, .token (other ')')] }

theorem Definition.wellFormed_parenthesizeAt (key : SourceKey) : (parenthesizeAt key).WellFormed where
  lead := wellFormed_parenthesize.lead
  slots := wellFormed_parenthesize.slots
  opener := rfl
  body := by
    intro item hitem
    rcases List.mem_cons.1 hitem with rfl | hitem
    · exact fun c h => by cases h
    · exact wellFormed_parenthesize.body item (List.mem_cons_of_mem _ hitem)
  balanced := Token.balanced_of_no_braces <| List.forall_mem_cons.2 ⟨⟨rfl, rfl⟩, by decide⟩
  closer := rfl

/-- After `\def\a#1{(#1)}` and `\def\b#1{(#1)}` at another place, `\ifx\a\b` goes on as `\iftrue` does. -/
theorem Conditional.ifSame_macros_parenthesize :
    ∃ (n n' : Machine) (mac mac' : Macro), n.lookup (.controlSequence "a") = .custom mac ∧
      n.lookup (.controlSequence "b") = .custom mac' ∧
      Stream.raw.Supplies [.named "a", .named "b"] n n' ∧
      ∀ (x : Expander) (t : Token),
        Expansion.primitive x t .ifSame n = Expansion.primitive x t .ifTrue n' := by
  have hready : Machine.ready.Arises := .act .standard (Run.isExecution_pushTokens [])
  obtain ⟨mac, scope, hmac, hlong, hshielded, harises⟩ := Definition.arises_define
    hready Machine.readable_ready (Definition.wellFormed_parenthesizeAt none) (.named "a") rfl
  let m := Machine.ready.unprefixed.change (.bound scope (.controlSequence "a") (.custom mac))
  obtain ⟨mac', scope', hmac', hlong', hshielded', harises'⟩ := Definition.arises_define (m := m)
    harises ⟨rfl, List.cons_ne_nil _ _⟩ (Definition.wellFormed_parenthesizeAt (some 3)) (.named "b") rfl
  let m' := m.unprefixed.change (.bound scope' (.controlSequence "b") (.custom mac'))
  have hlookup : m.lookup (.controlSequence "a") = .custom mac := by
    rw [Machine.lookup_change_bound, if_pos rfl]
  have hfirst : m'.lookup (.controlSequence "a") = .custom mac := by
    rw [Machine.lookup_change_bound, if_neg (by decide)]
    exact hlookup
  have hsecond : m'.lookup (.controlSequence "b") = .custom mac' := by
    rw [Machine.lookup_change_bound, if_pos rfl]
  have hsupplies : Stream.raw.Supplies [.named "a", .named "b"] (m'.push [.named "a", .named "b"]) m' :=
    Stream.supplies_push ⟨rfl, List.cons_ne_nil _ _⟩ _
  have hpush : (m'.push [.named "a", .named "b"]).Arises := harises'.act (Run.isExecution_pushTokens _)
  have hagrees : mac.Agrees mac' := by
    have hreplacement : mac.replacement.flatMap Replacement.items =
        mac'.replacement.flatMap Replacement.items := by
      rw [← Except.ok.inj hmac.replacement, ← Except.ok.inj hmac'.replacement]
      rfl
    exact ⟨hlong.trans hlong'.symm, hshielded.trans hshielded'.symm, by rw [hmac.lead, hmac'.lead]; rfl,
      by rw [hmac.parameters, hmac'.parameters]; rfl, hreplacement⟩
  refine ⟨m'.push [.named "a", .named "b"], m', mac, mac', hfirst, hsecond, hsupplies, fun x t => ?_⟩
  have ha : (m'.push [.named "a", .named "b"]).scopes.bindings.meaningOf (Token.named "a").value =
      .custom mac := hfirst
  have hb : (m'.push [.named "a", .named "b"]).scopes.bindings.meaningOf (Token.named "b").value =
      .custom mac' := hsecond
  obtain ⟨agree, hagree, hsame⟩ := Conditional.ifSame_macros harises' harises' hfirst hsecond
    hpush.reachable.accounted.1 ha hb hsupplies x t
  rw [hsame, hagree.2 hagrees]
  rfl

end Gullet

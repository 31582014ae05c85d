import Gullet.Proofs.Evolution.Continuing
import Gullet.Proofs.Stream.Expanding
import Gullet.Proofs.Stream.Remaining
import Gullet.Proofs.Unfolding.Leeway

/-!
# Expanding a token out of order

The command `\expandafter` takes a token away, expands the next one in place, and puts the first one back.
It does so one level deeper, and when one more expansion has been counted; but what is expanded there is
expanded in the same way without it. So the token comes before whatever the expansion in place leaves, on
whichever source this now stands, and nothing else is different but the count.
-/

namespace Gullet

namespace Stream

/-- Expands a token that has just been read, in place, if it can be expanded. Tells whether it could. -/
def inPlace (x : Expander) (t : Token) : Run Bool := do
  let m ← get
  if m.input.expansionEnabled && m.scopes.bindings.canExpand t then
    (← x t).forM Run.pushBack
    return true
  else
    Run.pushBack t
    return false

variable {x : Expander} {t first : Token} {m m' m₁ : Machine} {done : Bool}

/-- Whether a token is expanded, and what becomes of it. -/
theorem of_inPlace (h : inPlace x t m = (.ok done, m')) :
    done = (m.input.expansionEnabled && m.scopes.bindings.canExpand t) ∧
      (done = false → m' = m.push [t]) ∧
      (done = true → ∃ held m₁, x t m = (.ok held, m₁) ∧ held.forM Run.pushBack m₁ = (.ok ⟨⟩, m')) := by
  unfold inPlace at h
  rw [Run.get_bind_eval] at h
  split at h
  case isTrue hcan =>
    obtain ⟨held, m₁, hx, h⟩ := Run.exists_of_bind_eq_ok h
    obtain ⟨_, m₂, hheld, h⟩ := Run.exists_of_bind_eq_ok h
    cases h
    exact ⟨hcan.symm, nofun, fun _ => ⟨held, m₁, hx, hheld⟩⟩
  case isFalse hcannot =>
    rw [Run.bind_of_ok (Run.pushBack_eval t m)] at h
    cases h
    exact ⟨(Bool.eq_false_iff.2 hcannot).symm, fun _ => rfl, nofun⟩

theorem relates_inPlace {P : Run.Relation} [Run.Compositional P] {x' : Expander}
    (hx : ∀ t, (x t).Relates P (x' t)) (t : Token) : (inPlace x t).Relates P (inPlace x' t) := by
  refine .get (fun m n h => by rw [h.expansionEnabled, h.scopes]) fun m => ?_
  have hxt := hx t
  grind

theorem expansionDepth_of_raw (h : raw m = (.ok (some t), m')) : m'.expansionDepth = m.expansionDepth := by
  rw [(remaining_of_raw h).2]

/-- However deep a token is expanded, afterwards it is as deep as before. -/
theorem expansionDepth_inPlace {levels : Nat}
    (h : inPlace (Expansion.expandWithin levels) t m = (.ok done, m')) :
    m'.expansionDepth = m.expansionDepth := by
  have hkeeps : (inPlace (Expansion.expandWithin levels) t).Keeps Machine.Evolves :=
    relates_inPlace (P := Run.Keeping Machine.Evolves) (Run.respects_expandWithin levels) t
  have hcontinues := (hkeeps m).continues
  rw [h] at hcontinues
  exact hcontinues.expansionDepth

/-- Expanding the next token in place is reading it and expanding it in place. -/
theorem expandNext_of_raw (h : raw m = (.ok (some t), m₁)) :
    expandNext m = inPlace (Expansion.expandWithin (m.config.maxExpansionDepth + 1)) t m₁ := by
  have hconfig : m₁.config = m.config := by rw [(remaining_of_raw h).2]
  have hexpand : expand t m₁ = Expansion.expandWithin (m.config.maxExpansionDepth + 1) t m₁ := by
    rw [← hconfig]
    rfl
  unfold expandNext inPlace
  rw [Run.bind_of_ok h]
  dsimp only
  rw [Run.get_bind_eval, Run.get_bind_eval]
  split
  · rw [Run.bind_eval, Run.bind_eval, hexpand]
  · rfl

/-- What is expanded in place has been read before. -/
theorem exists_raw_of_expandNext {rest : List Lexer.Item} (h : expandNext m = (.ok done, m'))
    (hremaining : m.remaining = .ok t :: rest) :
    ∃ m₁, raw m = (.ok (some t), m₁) ∧ m₁.remaining = rest ∧ m.SameButInput m₁ := by
  obtain ⟨t?, m₁, hraw, -⟩ := Run.exists_of_bind_eq_ok h
  cases t? with
  | none => exact absurd ((remaining_of_raw_none hraw).1.symm.trans hremaining) nofun
  | some t' =>
    obtain ⟨hfirst, hsame⟩ := remaining_of_raw hraw
    obtain ⟨hhead, hrest⟩ := List.cons.inj (hfirst.symm.trans hremaining)
    cases hhead
    exact ⟨m₁, hraw, hrest, hsame⟩

end Stream

namespace Expansion

variable {x : Expander} {t : Token} {m m' : Machine} {u : Unit}

/-- What the command does, if it is not stopped. -/
theorem of_afterNext (h : afterNext x t m = (.ok u, m')) :
    ∃ a b m₁ m₂ done m₃, Stream.raw m = (.ok (some a), m₁) ∧ Stream.raw m₁ = (.ok (some b), m₂) ∧
      Stream.inPlace x b m₂ = (.ok done, m₃) ∧ m' = m₃.push [a] := by
  obtain ⟨a?, m₁, ha, h⟩ := Run.exists_of_bind_eq_ok h
  cases a? with
  | none => cases h
  | some a =>
    obtain ⟨b?, m₂, hb, h⟩ := Run.exists_of_bind_eq_ok h
    cases b? with
    | none => cases h
    | some b =>
      refine ⟨a, b, m₁, m₂, ?_⟩
      dsimp only at h
      rw [Run.get_bind_eval] at h
      unfold Stream.inPlace
      rw [Run.get_bind_eval]
      split at h
      case isTrue hcan =>
        rw [if_pos hcan]
        obtain ⟨held, m₃, hx, h⟩ := Run.exists_of_bind_eq_ok h
        obtain ⟨_, m₄, hheld, h⟩ := Run.exists_of_bind_eq_ok h
        rw [Run.pushBack_eval] at h
        cases h
        refine ⟨true, m₄, ha, hb, ?_, rfl⟩
        rw [Run.bind_of_ok hx, Run.bind_of_ok hheld]
        rfl
      case isFalse hcannot =>
        rw [if_neg hcannot]
        rw [Run.bind_of_ok (Run.pushBack_eval b m₂), Run.pushBack_eval] at h
        cases h
        exact ⟨false, m₂.push [b], ha, hb, Run.bind_of_ok (Run.pushBack_eval b m₂), rfl⟩

end Expansion

theorem Machine.canExpand_of_lookup {m : Machine} {t : Token} {ref : CommandRef} {p : ExpansionPrimitive}
    (hv : t.value = .command ref) (hp : m.lookup ref = .expansion p) :
    m.scopes.bindings.canExpand t = true := by
  unfold Bindings.canExpand
  rw [hv]
  exact congrArg Command.canExpand hp

/-- The token stands for the command `\expandafter`. -/
def Machine.IsExpandAfter (m : Machine) (t : Token) : Prop :=
  ∃ ref, t.value = .command ref ∧ m.lookup ref = .expansion .expandAfter

namespace Machine.IsExpandAfter

variable {m m' : Machine} {t : Token}

theorem canExpand (h : m.IsExpandAfter t) : m.scopes.bindings.canExpand t = true :=
  have ⟨_, hv, hp⟩ := h
  canExpand_of_lookup hv hp

theorem of_same (h : m.IsExpandAfter t) (hsame : m.SameButInput m') : m'.IsExpandAfter t := by
  rw [hsame]
  exact h

end Machine.IsExpandAfter

namespace Machine.Roomier

variable {spare : Nat} {m n : Machine}

/-- When both machines are brought to the same depth, they differ in the count alone. -/
theorem eq_counting (h : m.Roomier spare n) :
    ({ m with expansionDepth := n.expansionDepth } : Machine) = n.counting spare := by
  unfold Machine.counting
  rw [← h.expansions, h.others]

end Machine.Roomier

section

variable {t : Token} {m m' : Machine} {held : Option Token}

/-- **The command is the expansion of the next token in place, behind a token that it leaves alone.**

When it has been expanded, the machine is the one to which the expansion in place leads when the first
token has been read, with that token in front of the input and one more expansion counted. -/
theorem Expansion.of_expand_expandAfter (ht : m.IsExpandAfter t) (h : expand t m = (.ok held, m')) :
    held = none ∧ ∃ a b m₁ m₂ done m₃,
      Stream.raw m = (.ok (some a), m₁) ∧ Stream.raw m₁ = (.ok (some b), m₂) ∧
      Stream.expandNext m₁ = (.ok done, m₃) ∧
      done = (m₂.input.expansionEnabled && m₂.scopes.bindings.canExpand b) ∧
      (done = false → m₃ = m₂.push [b]) ∧ m' = (m₃.push [a]).counting 1 := by
  obtain ⟨ref, hv, hp⟩ := ht
  let x : Expander := Expansion.expandWithin m.config.maxExpansionDepth
  let inside : Machine := (m.counting 1).deepened
  obtain ⟨hroom, m₀, hprimitive, rfl⟩ := Run.of_expandWithin_primitive hv hp h
  obtain ⟨_, m₄, hafter, hheld⟩ := Run.exists_of_bind_eq_ok hprimitive
  cases hheld
  obtain ⟨a, b, i₁, i₂, done, i₃, ha, hb, hplace, rfl⟩ := Expansion.of_afterNext hafter
  -- the same happens outside the command, where there is more room
  have houtside : inside.Roomier 1 m := ⟨rfl, rfl, Nat.le_succ _, hroom⟩
  have hraw : (leeway 1).Couples Stream.raw Stream.raw := Coupling.Expanding.raw
  obtain ⟨m₁, ha', h₁⟩ := leeway.ok_of_couples hraw houtside ha
  obtain ⟨m₂, hb', h₂⟩ := leeway.ok_of_couples hraw h₁ hb
  have hcouples : (leeway 1).Couples (Stream.inPlace x b)
      (Stream.inPlace (Expansion.expandWithin (m.config.maxExpansionDepth + 1)) b) :=
    Stream.relates_inPlace (P := (leeway 1).Coupled)
      (leeway.couples_expandWithin (Nat.le_succ m.config.maxExpansionDepth)) b
  obtain ⟨m₃, hplace', h₃⟩ := leeway.ok_of_couples hcouples h₂ hplace
  have hconfig : m₁.config = m.config := by rw [(Stream.remaining_of_raw ha').2]
  have hnext : Stream.expandNext m₁ = (.ok done, m₃) := by
    rw [Stream.expandNext_of_raw hb', hconfig]
    exact hplace'
  obtain ⟨hdone, hback, -⟩ := Stream.of_inPlace hplace'
  refine ⟨rfl, a, b, m₁, m₂, done, m₃, ha', hb', hnext, hdone, hback, ?_⟩
  have hlevel : m₃.expansionDepth = i₃.expansionDepth - 1 := by
    rw [Stream.expansionDepth_inPlace hplace', Stream.expansionDepth_of_raw hb',
      Stream.expansionDepth_of_raw ha', Stream.expansionDepth_inPlace hplace,
      Stream.expansionDepth_of_raw hb, Stream.expansionDepth_of_raw ha]
    rfl
  show ({ i₃ with expansionDepth := i₃.expansionDepth - 1 } : Machine).push [a] = (m₃.counting 1).push [a]
  rw [← hlevel, h₃.eq_counting]

variable {a b : Token} {rest : List Lexer.Item}

/-- **The next token stays as it is and comes first, and behind it stands what the expansion of the one
after it leaves.**

The machine reads `a`, and then `b` with `rest` behind it is expanded in place: `b` may open a file, read
on to the end of one, or be this command itself. When `b` cannot be expanded, the stream is as before. -/
theorem remaining_of_expandAfter (ht : m.IsExpandAfter t)
    (hremaining : m.remaining = .ok a :: .ok b :: rest) (h : expand t m = (.ok held, m')) :
    held = none ∧ ∃ m₁ m₂ done m₃,
      Stream.raw m = (.ok (some a), m₁) ∧ m₁.remaining = .ok b :: rest ∧
      Stream.raw m₁ = (.ok (some b), m₂) ∧ m₂.remaining = rest ∧
      Stream.expandNext m₁ = (.ok done, m₃) ∧
      done = (m₂.input.expansionEnabled && m.scopes.bindings.canExpand b) ∧
      m'.remaining = .ok a :: m₃.remaining ∧
      (done = false → m'.remaining = .ok a :: .ok b :: rest) ∧
      m' = (m₃.push [a]).counting 1 := by
  obtain ⟨hheld, a', b', m₁, m₂, done, m₃, ha, hb, hnext, hdone, hback, rfl⟩ :=
    Expansion.of_expand_expandAfter ht h
  obtain ⟨hfirst, hsame⟩ := Stream.remaining_of_raw ha
  obtain ⟨hsecond, hsame'⟩ := Stream.remaining_of_raw hb
  rw [hremaining, hsecond] at hfirst
  obtain ⟨hfirst, htail⟩ := List.cons.inj hfirst
  obtain ⟨hbehind, hrest⟩ := List.cons.inj htail
  cases hfirst
  cases hbehind
  have hscopes : m₂.scopes = m.scopes := by rw [hsame', hsame]
  have hfront : ((m₃.push [a]).counting 1).remaining = .ok a :: m₃.remaining := m₃.remaining_push [a]
  rw [← hrest] at hsecond
  refine ⟨hheld, m₁, m₂, done, m₃, ha, hsecond, hb, hrest.symm, hnext, hscopes ▸ hdone, hfront, ?_, rfl⟩
  intro hfalse
  rw [hfront, hback hfalse, Machine.remaining_push, ← hrest]
  rfl

/-- A token is read from a file, which is exhausted then, and put back on the source below it. -/
theorem remaining_of_expandAfter_ifTrue :
    let a : Token := .char .letter 'a' none
    let b : Token := .char .letter 'b' none
    let file : InputSource := { pending := .ofList [a], kind := .file (.start [] .empty false) }
    let m : Machine :=
      { Machine.standard with
        input := ⟨[file, { pending := .ofList [.named "iftrue", b], kind := .bottom }]⟩ }
    m.IsExpandAfter (.named "expandafter") ∧ m.remaining = [.ok a, .ok (.named "iftrue"), .ok b] ∧
      ∃ m' m₁ m₃, expand (.named "expandafter") m = (.ok none, m') ∧
        m₁.remaining = [.ok (.named "iftrue"), .ok b] ∧ Stream.expandNext m₁ = (.ok true, m₃) ∧
        m'.remaining = .ok a :: m₃.remaining ∧ m'.input.sources.length = 1 := by
  intro a b file m
  have ht : m.IsExpandAfter (.named "expandafter") :=
    ⟨.controlSequence "expandafter", rfl, Machine.lookup_standard_of_find? (by cbv)⟩
  have hremaining : m.remaining = [.ok a, .ok (.named "iftrue"), .ok b] := by
    have hend : (Lexer.start [] .empty false).items m.codeOf = [] :=
      Lexer.items_of_end (Lexer.next_of_end rfl)
    show [.ok a] ++ ((Lexer.start [] .empty false).items m.codeOf ++ [.ok (.named "iftrue"), .ok b]) = _
    rw [hend]
    rfl
  have hok : (expand (.named "expandafter") m).1.isOk = true := by decide +kernel
  have hsources : (expand (.named "expandafter") m).2.input.sources.length = 1 := by decide +kernel
  obtain ⟨held, m', h⟩ : ∃ held m', expand (.named "expandafter") m = (.ok held, m') := by
    cases hr : expand (.named "expandafter") m with
    | mk result m' =>
      rw [hr] at hok
      cases result with
      | error halt => cases hok
      | ok held => exact ⟨held, m', rfl⟩
  obtain ⟨rfl, m₁, m₂, done, m₃, ha, hm₁, hb, -, hnext, hdone, hm', -, -⟩ :=
    remaining_of_expandAfter ht hremaining h
  have hm : m.Expanding := by
    intro mode hmode
    have hframe : Input.frame m.input.sources = [] := rfl
    rw [hframe] at hmode
    cases hmode
  have hexpanding : m₂.Expanding := Run.expanding_of_raw hb (Run.expanding_of_raw ha hm)
  have htrue : m.scopes.bindings.canExpand (.named "iftrue") = true :=
    Machine.canExpand_of_lookup rfl (Machine.lookup_standard_of_find? (by cbv))
  rw [Run.expansionEnabled_of_expanding hexpanding, htrue] at hdone
  rw [hdone] at hnext
  rw [h] at hsources
  exact ⟨ht, hremaining, m', m₁, m₃, h, hm₁, hnext, hm', hsources⟩

/-- **In a row of these commands each leaves the token alone that follows it.** So the expansion that a row
leads to is that of the token behind it, and all these tokens come before what it leaves. -/
theorem Stream.expandNext_row {links : List (Token × Token)} {done : Bool}
    (hlinks : ∀ link ∈ links, m.IsExpandAfter link.1) (hm : m.Expanding)
    (hremaining : m.remaining =
      (links.flatMap fun link => [link.1, link.2]).map .ok ++ .ok b :: rest)
    (h : expandNext m = (.ok done, m')) :
    ∃ m₁ done₁ m₂, m₁.remaining = .ok b :: rest ∧ expandNext m₁ = (.ok done₁, m₂) ∧
      m'.remaining = (links.map Prod.snd).map .ok ++ m₂.remaining := by
  induction links generalizing m m' done with
  | nil => exact ⟨m, done, m', hremaining, h, rfl⟩
  | cons link links ih =>
    obtain ⟨e, a⟩ := link
    obtain ⟨he, hlinks⟩ := List.forall_mem_cons.1 hlinks
    obtain ⟨m₁, hraw, hrest, hsame⟩ := exists_raw_of_expandNext h hremaining
    have hconfig : m₁.config = m.config := by rw [hsame]
    have he₁ := he.of_same hsame
    -- the first of the commands is expanded, and gives no token
    rw [Stream.expandNext_of_raw hraw, ← hconfig] at h
    obtain ⟨hdone, -, hexpanded⟩ := Stream.of_inPlace h
    have hm₁ : m₁.Expanding := Run.expanding_of_raw hraw hm
    rw [Run.expansionEnabled_of_expanding hm₁, he₁.canExpand] at hdone
    obtain ⟨held, m₂, hexpand, hheld⟩ := hexpanded hdone
    obtain ⟨rfl, a', b', m₃, m₄, done₃, m₅, ha, -, hnext, -, -, rfl⟩ :=
      Expansion.of_expand_expandAfter he₁ hexpand
    cases hheld
    -- and the other ones stand behind the token that it has read
    obtain ⟨hfirst, hsame₃⟩ := Stream.remaining_of_raw ha
    obtain ⟨hhead, htail⟩ := List.cons.inj (hfirst.symm.trans hrest)
    cases hhead
    have hlinks₃ (link : Token × Token) (h : link ∈ links) : m₃.IsExpandAfter link.1 :=
      ((hlinks link h).of_same hsame).of_same hsame₃
    obtain ⟨m₆, done₆, m₇, hbehind, hlast, hleft⟩ :=
      ih hlinks₃ (Run.expanding_of_raw ha hm₁) htail hnext
    refine ⟨m₆, done₆, m₇, hbehind, hlast, ?_⟩
    have hfront : ((m₅.push [a]).counting 1).remaining = .ok a :: m₅.remaining := m₅.remaining_push [a]
    rw [hfront, hleft]
    rfl

end

end Gullet

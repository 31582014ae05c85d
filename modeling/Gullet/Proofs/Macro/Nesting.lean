import Gullet.Proofs.Macro.Braces
import Gullet.Proofs.Macro.Delimiters

/-!
# Texts that open groups before they close them

A text is balanced if its depth is zero at the end and never less before. The second half can fail on its
own: `}{` closes a group that it has not opened. Cutting off the braces around an argument neither repairs
nor breaks this, and a delimiter, which closes no group, has no influence on it.
-/

namespace Gullet

namespace Token

/-- Nothing that the text starts with closes more groups than it opens. -/
def OpensFirst (ts : List Token) : Prop := ∀ us, us <+: ts → 0 ≤ depth us

variable {t : Token} {ts us : List Token}

/-- A part at the start of two texts put together ends in the first one or in the second one. -/
theorem opensFirst_append :
    OpensFirst (ts ++ us) ↔ OpensFirst ts ∧ ∀ vs, vs <+: us → 0 ≤ depth ts + depth vs := by
  constructor
  · intro h
    refine ⟨fun vs hvs => h vs (hvs.trans (List.prefix_append ts us)), fun vs hvs => ?_⟩
    rw [← depth_append]
    exact h _ ((List.prefix_append_right_inj ts).2 hvs)
  · rintro ⟨hts, hus⟩ vs hvs
    rcases List.prefix_or_prefix_of_prefix hvs (List.prefix_append ts us) with hleft | ⟨ws, rfl⟩
    · exact hts vs hleft
    · rw [depth_append]
      exact hus ws ((List.prefix_append_right_inj ts).1 hvs)

theorem opensFirst_nil : OpensFirst [] := fun us hus => by
  rw [List.prefix_nil.1 hus]
  exact Int.le_refl 0

theorem opensFirst_concat :
    OpensFirst (ts ++ [t]) ↔ OpensFirst ts ∧ 0 ≤ depth ts + Macro.depthChange t.value := by
  rw [opensFirst_append]
  refine and_congr_right fun hts => ⟨fun h => ?_, fun h vs hvs => ?_⟩
  · have hwhole := h [t] (List.prefix_refl _)
    rwa [depth_cons, depth_nil, Int.add_zero] at hwhole
  · rcases List.prefix_cons_iff.1 hvs with rfl | ⟨ws, rfl, hws⟩
    · rw [depth_nil, Int.add_zero]
      exact hts ts (List.prefix_refl ts)
    · rw [List.prefix_nil.1 hws, depth_cons, depth_nil, Int.add_zero]
      exact h

section

/-! Tokens that are no braces change nothing. -/

variable (h : ∀ t ∈ us, t.value.isBeginGroup = false ∧ t.value.isEndGroup = false)
include h

theorem depth_of_no_braces : depth us = 0 := depth_of_balanced (balanced_of_no_braces h)

theorem depth_prefix_of_no_braces {vs : List Token} (hvs : vs <+: us) : depth vs = 0 :=
  depth_of_no_braces fun t ht => h t (hvs.subset ht)

theorem opensFirst_append_of_no_braces : OpensFirst (ts ++ us) ↔ OpensFirst ts := by
  rw [opensFirst_append]
  refine and_iff_left_of_imp fun hts vs hvs => ?_
  rw [depth_prefix_of_no_braces h hvs, Int.add_zero]
  exact hts ts (List.prefix_refl ts)

theorem opensFirst_of_no_braces_append : OpensFirst (us ++ ts) ↔ OpensFirst ts := by
  have hus : OpensFirst us := fun vs hvs => Int.le_of_eq (depth_prefix_of_no_braces h hvs).symm
  rw [opensFirst_append, depth_of_no_braces h]
  simp only [Int.zero_add]
  exact and_iff_right hus

end

/-- A single group in braces opens first if its content does. -/
theorem opensFirst_group {opener closer : Token} (ho : opener.value.isBeginGroup = true)
    (hc : closer.value.isEndGroup = true) (hdepth : 0 ≤ depth ts) (hts : OpensFirst ts) :
    OpensFirst (opener :: (ts ++ [closer])) := by
  have hopener : Macro.depthChange opener.value = 1 := Macro.depthChange_of_begin ho
  have hcloser : Macro.depthChange closer.value = -1 := Macro.depthChange_of_end hc
  rw [← List.cons_append, opensFirst_concat]
  constructor
  · intro vs hvs
    rcases List.prefix_cons_iff.1 hvs with rfl | ⟨ws, rfl, hws⟩
    · exact Int.le_refl 0
    · have hinside := hts ws hws
      rw [depth_cons]
      omega
  · rw [depth_cons]
    omega

theorem opensFirst_of_balanced (h : Balanced ts) : OpensFirst ts := by
  induction h with
  | nil => exact opensFirst_nil
  | @token t ts hto htc _ ih =>
    have hplain : ∀ u ∈ [t], u.value.isBeginGroup = false ∧ u.value.isEndGroup = false := by
      simpa using And.intro hto htc
    exact (opensFirst_of_no_braces_append hplain).2 ih
  | @group opener closer body ts ho hc hbody _ ihbody ih =>
    have hsplit : opener :: (body ++ closer :: ts) = (opener :: (body ++ [closer])) ++ ts := by simp
    have hgroup : depth (opener :: (body ++ [closer])) = 0 := depth_of_balanced (.group ho hc hbody .nil)
    rw [hsplit, opensFirst_append, hgroup]
    refine ⟨opensFirst_group ho hc (Int.le_of_eq (depth_of_balanced hbody).symm) ihbody, fun us hus => ?_⟩
    rw [Int.zero_add]
    exact ih us hus

/-- The text closes the given number of groups that are open before it, and is balanced otherwise. -/
inductive Closes : Nat → List Token → Prop where
  | balanced {ts : List Token} (hts : Balanced ts) : Closes 0 ts
  | close {depth : Nat} {body ts : List Token} {closer : Token} (hbody : Balanced body)
      (hc : closer.value.isEndGroup = true) (hts : Closes depth ts) :
      Closes (depth + 1) (body ++ closer :: ts)

theorem Closes.token {depth : Nat} (hto : t.value.isBeginGroup = false)
    (htc : t.value.isEndGroup = false) (h : Closes depth ts) : Closes depth (t :: ts) := by
  cases h with
  | balanced hts => exact .balanced (.token hto htc hts)
  | close hbody hc hts => exact .close (.token hto htc hbody) hc hts

theorem Closes.end {depth : Nat} (hc : t.value.isEndGroup = true) (h : Closes depth ts) :
    Closes (depth + 1) (t :: ts) :=
  @Closes.close depth [] ts t .nil hc h

/-- The group that the first of the closing braces ends is opened. -/
theorem Closes.open {depth : Nat} (ho : t.value.isBeginGroup = true) (h : Closes (depth + 1) ts) :
    Closes depth (t :: ts) := by
  cases h with
  | @close _ body _ closer hbody hc hts =>
    cases hts with
    | balanced hts => exact .balanced (.group ho hc hbody hts)
    | @close _ body' ts closer' hbody' hc' hts =>
      have hsplit : t :: (body ++ closer :: (body' ++ closer' :: ts)) =
          (t :: (body ++ closer :: body')) ++ closer' :: ts := by
        simp
      rw [hsplit]
      exact .close (.group ho hc hbody hbody') hc' hts

theorem closes_of_depth {depth : Nat} (hend : depth + Token.depth ts = 0)
    (hopens : ∀ us, us <+: ts → 0 ≤ depth + Token.depth us) : Closes depth ts := by
  induction ts generalizing depth with
  | nil =>
    rw [depth_nil] at hend
    obtain rfl : depth = 0 := by omega
    exact .balanced .nil
  | cons t ts ih =>
    rw [depth_cons] at hend
    have hrest (us : List Token) (hus : us <+: ts) :
        0 ≤ depth + (Macro.depthChange t.value + Token.depth us) := by
      rw [← depth_cons]
      exact hopens _ (List.cons_prefix_cons.2 ⟨rfl, hus⟩)
    by_cases ho : t.value.isBeginGroup = true
    · rw [Macro.depthChange_of_begin ho] at hend hrest
      refine .open ho (ih (by omega) fun us hus => ?_)
      have hus := hrest us hus
      omega
    · by_cases hc : t.value.isEndGroup = true
      · rw [Macro.depthChange_of_end hc] at hend hrest
        have hfirst := hrest [] List.nil_prefix
        rw [depth_nil] at hfirst
        obtain ⟨outer, rfl⟩ : ∃ outer, depth = outer + 1 := ⟨depth - 1, by omega⟩
        refine .end hc (ih (by omega) fun us hus => ?_)
        have hus := hrest us hus
        omega
      · rw [Macro.depthChange_of_none (Bool.eq_false_iff.2 ho) (Bool.eq_false_iff.2 hc)] at hend hrest
        refine .token (Bool.eq_false_iff.2 ho) (Bool.eq_false_iff.2 hc) (ih (by omega) fun us hus => ?_)
        have hus := hrest us hus
        omega

/-- A text that ends at the depth at which it starts is balanced if it opens groups before it closes
them. -/
theorem balanced_of_opensFirst (hdepth : depth ts = 0) (hopens : OpensFirst ts) : Balanced ts := by
  have hcloses : Closes 0 ts := closes_of_depth (by omega) fun us hus => by
    have hus := hopens us hus
    omega
  cases hcloses with
  | balanced hts => exact hts

end Token

open Token

variable {ts us : List Token} {closer : Token}

namespace Macro

/-- What does not close the brace before it, at a depth of at least one, stays at that depth. -/
theorem depth_of_closesEarly {depth : Nat} (hdepth : 1 ≤ depth)
    (h : closesEarly depth (ts ++ [closer]) = false) (us : List Token) (hus : us <+: ts) :
    1 ≤ depth + Token.depth us := by
  induction ts generalizing depth us with
  | nil =>
    rw [List.prefix_nil.1 hus, Token.depth_nil]
    omega
  | cons t ts ih =>
    rw [List.cons_append, closesEarly_cons (List.append_ne_nil_of_right_ne_nil _ (List.cons_ne_nil _ _))] at h
    rcases List.prefix_cons_iff.1 hus with rfl | ⟨vs, rfl, hvs⟩
    · rw [Token.depth_nil]
      omega
    rw [Token.depth_cons]
    by_cases ho : t.value.isBeginGroup = true
    · rw [if_pos ho] at h
      have hrest := ih (by omega) h vs hvs
      rw [depthChange_of_begin ho]
      omega
    · rw [if_neg ho] at h
      by_cases hc : t.value.isEndGroup = true
      · rw [if_pos hc, Bool.or_eq_false_iff, decide_eq_false_iff_not] at h
        have hrest := ih (by omega) h.2 vs hvs
        rw [depthChange_of_end hc]
        omega
      · rw [if_neg hc] at h
        have hrest := ih hdepth h vs hvs
        rw [depthChange_of_none (Bool.eq_false_iff.2 ho) (Bool.eq_false_iff.2 hc)]
        omega

/-- Braces are cut off only around what opens groups before it closes them. -/
theorem withoutBraces_cases (ts : List Token) :
    withoutBraces ts = ts ∨
      ∃ opener closer, ts = opener :: (withoutBraces ts ++ [closer]) ∧
        opener.value.isBeginGroup = true ∧ closer.value.isEndGroup = true ∧
        OpensFirst (withoutBraces ts) := by
  unfold withoutBraces
  split
  · rename_i first second rest last hlast
    split
    · rename_i h
      simp only [Bool.and_eq_true, Bool.not_eq_true'] at h
      obtain ⟨⟨hfirst, hend⟩, hearly⟩ := h
      rw [List.getLast?_cons_cons] at hlast
      obtain ⟨inside, hinside⟩ := List.getLast?_eq_some_iff.1 hlast
      rw [hinside] at hearly ⊢
      rw [List.dropLast_concat]
      refine .inr ⟨first, last, rfl, hfirst, hend, fun us hus => ?_⟩
      have hinside := depth_of_closesEarly (Nat.le_refl 1) hearly us hus
      omega
    · exact .inl rfl
  · exact .inl rfl

/-- An argument that ends at the depth at which it starts is balanced if it opens groups before it closes
them, whether or not its braces are cut off. -/
theorem balanced_withoutBraces_iff (hdepth : Token.depth ts = 0) :
    Token.depth (withoutBraces ts) = 0 ∧ OpensFirst (withoutBraces ts) ↔ OpensFirst ts := by
  rcases withoutBraces_cases ts with hkept | ⟨opener, closer, hts, ho, hc, hinside⟩
  · rw [hkept]
    exact and_iff_right hdepth
  · have hcut : Token.depth (withoutBraces ts) = 0 := by
      rw [hts, Token.depth_cons, Token.depth_append, Token.depth_cons, depthChange_of_begin ho,
        depthChange_of_end hc, Token.depth_nil] at hdepth
      omega
    refine iff_of_true ⟨hcut, hinside⟩ ?_
    rw [hts]
    exact opensFirst_group ho hc (by omega) hinside

end Macro

/-! ### Delimiters -/

namespace Macro

/-- The depth at which a delimiter is found is that to which its last token leads. -/
theorem closingDepth_concat (vs : List TokenValue) {v : TokenValue} (hv : v.isEndGroup = false) :
    closingDepth (vs ++ [v]).toArray = depthChange v := by
  unfold closingDepth
  rw [List.back?_toArray, List.getLast?_concat]
  cases v with
  | command ref => rfl
  | char category c =>
    cases category with
    | endGroup => cases hv
    | _ => rfl

/-- A delimiter ends at the depth at which it is looked for, and closes no group. -/
theorem opensFirst_append_delimiter {vs : List TokenValue} (hvs : TokenValue.IsDelimiter vs)
    (hne : vs ≠ []) {delimiter : List Token} (hvalues : delimiter.map Token.value = vs)
    (hdepth : Token.depth (ts ++ delimiter) = closingDepth vs.toArray) :
    Token.depth ts = 0 ∧ (OpensFirst (ts ++ delimiter) ↔ OpensFirst ts) := by
  obtain ⟨init, v, rfl⟩ : ∃ init v, vs = init ++ [v] :=
    ⟨_, _, (List.dropLast_concat_getLast hne).symm⟩
  obtain ⟨before, last, rfl, rfl, hlast⟩ := List.map_eq_append_iff.1 hvalues
  obtain ⟨t, rfl, rfl⟩ := List.map_eq_singleton_iff.1 hlast
  have hclose : t.value.isEndGroup = false := hvs.closes _ (List.mem_append_right _ (List.mem_singleton_self _))
  have hplain : ∀ u ∈ before, u.value.isBeginGroup = false ∧ u.value.isEndGroup = false := by
    intro u hu
    have hmem : u.value ∈ before.map Token.value := List.mem_map_of_mem hu
    refine ⟨hvs.opens _ ?_, hvs.closes _ (List.mem_append_left _ hmem)⟩
    rwa [List.dropLast_concat]
  have hnonneg : 0 ≤ depthChange t.value := by
    unfold depthChange
    rw [hclose]
    split <;> decide
  rw [closingDepth_concat _ hclose, Token.depth_append, Token.depth_append, depth_of_no_braces hplain,
    Token.depth_cons, Token.depth_nil] at hdepth
  have hzero : Token.depth ts = 0 := by omega
  refine ⟨hzero, ?_⟩
  rw [← List.append_assoc, opensFirst_concat, opensFirst_append_of_no_braces hplain, Token.depth_append,
    depth_of_no_braces hplain, hzero]
  exact and_iff_left (by omega)

end Macro

end Gullet

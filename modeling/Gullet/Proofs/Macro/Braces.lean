import Gullet.Macro.Call
import Gullet.Proofs.Stream.Supplying

/-!
# Balanced texts

A text is balanced if each brace in it has its counterpart. A balanced text is read up to the brace that
closes it, and its depth is zero at the end. Only an argument that is a single group in braces loses them.
-/

namespace Gullet

namespace Token

/-- How much deeper in braces a text ends than it starts. -/
def depth : List Token → Int
  | [] => 0
  | t :: ts => Macro.depthChange t.value + depth ts

@[simp] theorem depth_nil : depth [] = 0 := rfl

@[simp] theorem depth_cons (t : Token) (ts : List Token) :
    depth (t :: ts) = Macro.depthChange t.value + depth ts := rfl

@[simp] theorem depth_append (ts us : List Token) : depth (ts ++ us) = depth ts + depth us := by
  induction ts with
  | nil => simp
  | cons t ts ih => rw [List.cons_append, depth_cons, depth_cons, ih, Int.add_assoc]

/-- A text in which every brace has its counterpart. -/
inductive Balanced : List Token → Prop where
  | nil : Balanced []
  | token {t : Token} {ts : List Token} (hto : t.value.isBeginGroup = false)
      (htc : t.value.isEndGroup = false) (hts : Balanced ts) : Balanced (t :: ts)
  | group {opener closer : Token} {body ts : List Token} (ho : opener.value.isBeginGroup = true)
      (hc : closer.value.isEndGroup = true) (hbody : Balanced body) (hts : Balanced ts) :
      Balanced (opener :: (body ++ closer :: ts))

/-- A text that is a single group in braces. -/
def IsGroup (ts : List Token) : Prop :=
  ∃ opener body closer, ts = opener :: (body ++ [closer]) ∧ opener.value.isBeginGroup = true ∧
    closer.value.isEndGroup = true ∧ Balanced body

end Token

variable {t opener closer : Token} {ts us : List Token}

/-! ### Depth -/

namespace Macro

theorem depthChange_of_begin (h : t.value.isBeginGroup = true) : depthChange t.value = 1 := by
  unfold depthChange
  rw [if_pos h]

theorem depthChange_of_end (h : t.value.isEndGroup = true) : depthChange t.value = -1 := by
  unfold depthChange
  rw [if_neg (by rw [TokenValue.isBeginGroup_of_isEndGroup h]; exact Bool.false_ne_true), if_pos h]

theorem depthChange_of_none (hto : t.value.isBeginGroup = false) (htc : t.value.isEndGroup = false) :
    depthChange t.value = 0 := by
  unfold depthChange
  rw [hto, htc]
  rfl

end Macro

namespace Token

/-- Only the values of the tokens matter. -/
theorem depth_congr (h : ts.map Token.value = us.map Token.value) : depth ts = depth us := by
  induction ts generalizing us with
  | nil =>
    obtain rfl := List.map_eq_nil_iff.1 h.symm
    rfl
  | cons t ts ih =>
    obtain ⟨u, us, rfl, hv, hrest⟩ := List.map_eq_cons_iff.1 h.symm
    rw [depth_cons, depth_cons, hv, ih hrest.symm]

/-- A balanced text ends where it starts. -/
theorem depth_of_balanced (h : Balanced ts) : depth ts = 0 := by
  induction h with
  | nil => rfl
  | token hto htc _ ih => rw [depth_cons, Macro.depthChange_of_none hto htc, ih, Int.add_zero]
  | group ho hc _ _ ihbody ih =>
    rw [depth_cons, depth_append, depth_cons, Macro.depthChange_of_begin ho,
      Macro.depthChange_of_end hc, ihbody, ih]
    rfl

theorem balanced_of_no_braces
    (h : ∀ t ∈ ts, t.value.isBeginGroup = false ∧ t.value.isEndGroup = false) : Balanced ts := by
  induction ts with
  | nil => exact .nil
  | cons t ts ih =>
    obtain ⟨⟨hto, htc⟩, hts⟩ := List.forall_mem_cons.1 h
    exact .token hto htc (ih hts)

end Token

/-! ### Cutting off braces -/

namespace Macro

theorem closesEarly_cons (hts : ts ≠ []) (depth : Nat) :
    closesEarly depth (t :: ts) =
      if t.value.isBeginGroup then closesEarly (depth + 1) ts
      else if t.value.isEndGroup then depth ≤ 1 || closesEarly (depth - 1) ts
      else closesEarly depth ts := by
  obtain ⟨u, us, rfl⟩ := List.exists_cons_of_ne_nil hts
  rw [closesEarly]
  exact hts

theorem closesEarly_of_end (hts : ts ≠ []) (hc : closer.value.isEndGroup = true) (depth : Nat) :
    closesEarly depth (closer :: ts) = (decide (depth ≤ 1) || closesEarly (depth - 1) ts) := by
  rw [closesEarly_cons hts, TokenValue.isBeginGroup_of_isEndGroup hc, hc]
  rfl

/-- A balanced text does not close the braces around it. -/
theorem closesEarly_append (h : Token.Balanced ts) (hus : us ≠ []) (depth : Nat) :
    closesEarly (depth + 1) (ts ++ us) = closesEarly (depth + 1) us := by
  induction h generalizing us depth with
  | nil => rfl
  | token hto htc _ ih =>
    rw [List.cons_append, closesEarly_cons (List.append_ne_nil_of_right_ne_nil _ hus), hto, htc]
    exact ih hus depth
  | @group opener closer body ts ho hc _ _ ihbody ih =>
    have hne : ts ++ us ≠ [] := List.append_ne_nil_of_right_ne_nil _ hus
    rw [List.cons_append, List.append_assoc, List.cons_append,
      closesEarly_cons (List.append_ne_nil_of_right_ne_nil _ (List.cons_ne_nil _ _)), if_pos ho,
      ihbody (List.cons_ne_nil _ _), closesEarly_of_end hne hc]
    simp [ih hus depth]

/-- What starts with a brace that is closed early keeps its braces. -/
theorem withoutBraces_of_closesEarly
    (h : ∀ first second rest, ts = first :: second :: rest → first.value.isBeginGroup = true →
      closesEarly 1 (second :: rest) = true) : withoutBraces ts = ts := by
  unfold withoutBraces
  split
  · rename_i first second rest last hlast
    by_cases ho : first.value.isBeginGroup = true
    · rw [h first second rest rfl ho]
      simp
    · rw [Bool.eq_false_iff.2 ho]
      rfl
  · rfl

/-- Only a single group in braces loses them. -/
theorem withoutBraces_of_balanced (h : Token.Balanced ts) (hgroup : ¬ Token.IsGroup ts) :
    withoutBraces ts = ts := by
  refine withoutBraces_of_closesEarly fun first second rest hts hfirst => ?_
  cases h with
  | nil => cases hts
  | token hto _ _ =>
    cases hts
    rw [hto] at hfirst
    cases hfirst
  | @group opener closer body ts ho hc hbody _ =>
    obtain ⟨-, hrest⟩ := List.cons.inj hts
    -- Something follows the first group, so its braces are closed early.
    have hne : ts ≠ [] := by
      rintro rfl
      exact hgroup ⟨opener, body, closer, rfl, ho, hc, hbody⟩
    rw [← hrest, closesEarly_append hbody (List.cons_ne_nil _ _), closesEarly_of_end hne hc]
    rfl

end Macro

/-! ### Reading up to the closing brace -/

namespace Reader

/-- One round of reading balanced text. -/
def balancedRound (s : Stream) (b : Nat × List Token) :
    Run ((Nat × List Token) ⊕ (Bool × List Token)) := do
  match ← s with
  | none => return .inr (false, b.2.reverse)
  | some t =>
    if t.value.isBeginGroup then return .inl (b.1 + 1, t :: b.2)
    else if t.value.isEndGroup then
      match b.1 with
      | 0 => return .inr (true, b.2.reverse)
      | depth + 1 => return .inl (depth, t :: b.2)
    else return .inl (b.1, t :: b.2)

theorem balanced_eq (s : Stream) : balanced s = Run.loop (balancedRound s) (0, []) := rfl

variable {b : Bindings} {m m' m₁ : Machine} {sofar : List Token} {depth : Nat}

theorem balancedRound_begin (h : Stream.raw m = (.ok (some t), m'))
    (ho : t.value.isBeginGroup = true) :
    balancedRound Stream.raw (depth, sofar) m = (.ok (.inl (depth + 1, t :: sofar)), m') := by
  unfold balancedRound
  rw [Run.bind_of_ok h]
  simp only [ho, if_true]
  rfl

theorem balancedRound_end (h : Stream.raw m = (.ok (some t), m')) (hc : t.value.isEndGroup = true) :
    balancedRound Stream.raw (depth + 1, sofar) m = (.ok (.inl (depth, t :: sofar)), m') := by
  unfold balancedRound
  rw [Run.bind_of_ok h]
  simp only [TokenValue.isBeginGroup_of_isEndGroup hc, hc, if_true]
  rfl

theorem balancedRound_close (h : Stream.raw m = (.ok (some t), m'))
    (hc : t.value.isEndGroup = true) :
    balancedRound Stream.raw (0, sofar) m = (.ok (.inr (true, sofar.reverse)), m') := by
  unfold balancedRound
  rw [Run.bind_of_ok h]
  simp only [TokenValue.isBeginGroup_of_isEndGroup hc, hc, if_true]
  rfl

theorem balancedRound_token (h : Stream.raw m = (.ok (some t), m'))
    (hto : t.value.isBeginGroup = false) (htc : t.value.isEndGroup = false) :
    balancedRound Stream.raw (depth, sofar) m = (.ok (.inl (depth, t :: sofar)), m') := by
  unfold balancedRound
  rw [Run.bind_of_ok h]
  simp only [hto, htc]
  rfl

/-- Balanced text is read at any depth, and leaves the depth as it is. -/
theorem loop_balanced (hts : Token.Balanced ts) (hm : m.Steady b)
    (h : Stream.raw.Supplies ts m m') :
    Run.loop (balancedRound Stream.raw) (depth, sofar) m =
      Run.loop (balancedRound Stream.raw) (depth, ts.reverse ++ sofar) m' := by
  induction hts generalizing depth sofar m m' with
  | nil =>
    obtain rfl : m = m' := h
    rfl
  | @token t ts hto htc _ ih =>
    obtain ⟨m₁, ht, hrest⟩ := h
    rw [Run.loop_of_progress (balancedRound_token ht hto htc) (Run.progress_of_raw ht hm.accounted),
      ih (hm.raw ht) hrest]
    simp
  | @group opener closer body ts ho hc _ _ ihbody ih =>
    obtain ⟨m₁, hopener, h⟩ := h
    obtain ⟨m₂, hbody, m₃, hcloser, hrest⟩ := Stream.supplies_append.1 h
    have hm₁ := hm.raw hopener
    have hm₂ := hm₁.supplies hbody
    rw [Run.loop_of_progress (balancedRound_begin hopener ho)
        (Run.progress_of_raw hopener hm.accounted),
      ihbody hm₁ hbody,
      Run.loop_of_progress (balancedRound_end hcloser hc)
        (Run.progress_of_raw hcloser hm₂.accounted),
      ih (hm₂.raw hcloser) hrest]
    simp

/-- Balanced text is read up to the brace that closes it. -/
theorem finishBalanced_eval (hts : Token.Balanced ts) (hc : closer.value.isEndGroup = true)
    (hm : m.Steady b) (h : Stream.raw.Supplies (ts ++ [closer]) m m') :
    finishBalanced Stream.raw opener m = (.ok ts, m') := by
  obtain ⟨m₁, hbody, hcloser⟩ := Stream.supplies_append.1 h
  have hbalanced : balanced Stream.raw m = (.ok (true, ts), m') := by
    rw [balanced_eq, loop_balanced hts hm hbody,
      Run.loop_of_answer (balancedRound_close (Stream.supplies_singleton.1 hcloser) hc)]
    simp
  unfold finishBalanced
  rw [Run.bind_of_ok hbalanced]
  rfl

end Reader

end Gullet

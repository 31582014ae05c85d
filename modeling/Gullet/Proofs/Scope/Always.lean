import Gullet.Proofs.Scope.Layers

/-!
# What holds of every value of a scoped map

A property holds of every value that can be seen, now or after groups have been closed, if it holds of
every value when it is written.
-/

namespace Gullet.ScopedMap

universe u v

variable {K : Type u} {V : Type v} [Ord K]

/-- Every value that can be seen, and every value that comes back when groups are closed, has the
property. -/
structure Always (p : V → Prop) (m : ScopedMap K V) : Prop where
  visible : ∀ (k : K) (v : V), m.visible[k]? = some v → p v
  undo : ∀ log ∈ m.undo, ∀ (k : K) (v : V), log[k]? = some (some v) → p v

namespace Always

variable {p : V → Prop} {m : ScopedMap K V}

theorem get? (h : m.Always p) {k : K} {v : V} (hv : m.get? k = some v) : p v := h.visible k v hv

/-- What can be seen of a map without groups is all there is. -/
theorem of_undo_nil (hundo : m.undo = []) (h : ∀ k v, m.get? k = some v → p v) : m.Always p where
  visible := h
  undo log hlog := by
    rw [hundo] at hlog
    cases hlog

variable [Std.TransOrd K]

theorem visible_insert (h : m.Always p) {a : K} {w : V} (hw : p w) (k : K) (v : V)
    (hv : (m.visible.insert a w)[k]? = some v) : p v := by
  rw [Std.TreeMap.getElem?_insert] at hv
  split at hv
  · cases hv
    exact hw
  · exact h.visible k v hv

/-- What can be seen in a new map has been listed. -/
theorem ofList {entries : List (K × V)} (h : ∀ e ∈ entries, p e.2) :
    (ScopedMap.ofList entries).Always p := by
  have hinsert (t : Std.TreeMap K V) (ht : ∀ (k : K) (v : V), t[k]? = some v → p v) (k : K) (v : V)
      (hv : (t.insertMany entries)[k]? = some v) : p v := by
    induction entries generalizing t with
    | nil => exact ht k v hv
    | cons e rest ih =>
      obtain ⟨a, w⟩ := e
      rw [Std.TreeMap.insertMany_cons] at hv
      refine ih (fun e he => h e (List.mem_cons_of_mem _ he)) (t.insert a w) (fun k v hv => ?_) hv
      rw [Std.TreeMap.getElem?_insert] at hv
      split at hv
      · cases hv
        exact h _ List.mem_cons_self
      · exact ht k v hv
  refine of_undo_nil rfl fun k v hv => hinsert ∅ (fun k v hv => ?_) k v ?_
  · simp at hv
  · rw [← Std.TreeMap.ofList_eq_insertMany_empty]
    exact hv

/-- A local write saves the value that could be seen before. -/
theorem insertLocal (h : m.Always p) (a : K) {w : V} (hw : p w) : (m.insertLocal a w).Always p := by
  unfold ScopedMap.insertLocal
  split
  case h_1 hundo =>
    exact ⟨h.visible_insert hw, h.undo⟩
  case h_2 log outer hundo =>
    refine ⟨h.visible_insert hw, fun l hl k v hv => ?_⟩
    have hlog (k : K) (v : V) (hv : log[k]? = some (some v)) : p v :=
      h.undo log (by rw [hundo]; exact List.mem_cons_self) k v hv
    rcases List.mem_cons.1 hl with rfl | hl
    · split at hv
      · exact hlog k v hv
      · rw [Std.TreeMap.getElem?_insert] at hv
        split at hv
        · exact h.visible _ v (Option.some.inj hv)
        · exact hlog k v hv
    · exact h.undo l (by rw [hundo]; exact List.mem_cons_of_mem _ hl) k v hv

theorem beginGroup (h : m.Always p) : m.beginGroup.Always p where
  visible := h.visible
  undo log hlog k v hv := by
    rcases List.mem_cons.1 hlog with rfl | hlog
    · simp at hv
    · exact h.undo log hlog k v hv

theorem insertGlobal (h : m.Always p) (a : K) {w : V} (hw : p w) : (m.insertGlobal a w).Always p := by
  refine ⟨h.visible_insert hw, fun l hl k v hv => ?_⟩
  obtain ⟨log, hlog, rfl⟩ := List.mem_map.1 hl
  rw [Std.TreeMap.getElem?_erase] at hv
  split at hv
  · cases hv
  · exact h.undo log hlog k v hv

theorem insert (h : m.Always p) (scope : Scope) (a : K) {w : V} (hw : p w) :
    (m.insert scope a w).Always p := by
  cases scope with
  | inner => exact h.insertLocal a hw
  | everywhere => exact h.insertGlobal a hw

/-- What comes back at the end of a group has been seen before. -/
theorem endGroup [Std.LawfulEqOrd K] (h : m.Always p) : m.endGroup.Always p := by
  cases hundo : m.undo with
  | nil =>
    rw [endGroup_of_depth_eq_zero (by simp [depth, hundo])]
    exact h
  | cons log outer =>
    rw [endGroup_of_undo hundo]
    refine ⟨fun k v hv => ?_, fun l hl => h.undo l (by rw [hundo]; exact List.mem_cons_of_mem _ hl)⟩
    have hv : (log.foldl restore m.visible)[k]? = some v := hv
    rw [getElem?_undone] at hv
    cases hlog : log[k]? with
    | none =>
      rw [hlog] at hv
      exact h.visible k v hv
    | some old =>
      rw [hlog] at hv
      obtain rfl : old = some v := hv
      exact h.undo log (by rw [hundo]; exact List.mem_cons_self) k v hlog

end Always

end Gullet.ScopedMap

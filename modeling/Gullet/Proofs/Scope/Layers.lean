import Gullet.Scope

/-!
# Scoped maps as stacks of complete maps

The plain way to have maps under grouping is to keep a complete copy of the map for every open group. A
scoped map keeps one map and a log of what to undo instead. Here both are shown to be the same: after
any sequence of writes, openings and closings the same entries can be seen in them.

What carries the proof is a law for each operation that says what is left of it once the innermost
group is closed: of a local write nothing, of a global write the write itself, of an opening nothing.
-/

namespace Gullet

universe u v

/-- A stack of complete values: the current one, and those from before each open group, innermost
first. -/
structure Layers (α : Type u) where
  current : α
  outer : List α := []

namespace Layers

variable {α : Type u}

/-- Changes the current value only. -/
def mapCurrent (l : Layers α) (f : α → α) : Layers α := { l with current := f l.current }

/-- Changes every value. -/
def mapAll (l : Layers α) (f : α → α) : Layers α := ⟨f l.current, l.outer.map f⟩

/-- Duplicates the current value. -/
def beginGroup (l : Layers α) : Layers α := ⟨l.current, l.current :: l.outer⟩

/-- Drops the current value, unless it is the only one. -/
def endGroup? (l : Layers α) : Option (Layers α) :=
  match l.outer with
  | [] => none
  | a :: outer => some ⟨a, outer⟩

/-- The number of open groups. -/
def depth (l : Layers α) : Nat := l.outer.length

end Layers

namespace ScopedMap

variable {K : Type u} {V : Type v} [Ord K]

/-! ### Scoped maps that cannot be told apart -/

/-- Two scoped maps with the same logs in which the same entries can be seen. -/
structure Alike (m n : ScopedMap K V) : Prop where
  visible : m.visible.Equiv n.visible
  undo : m.undo = n.undo

namespace Alike

theorem refl (m : ScopedMap K V) : m.Alike m := ⟨.rfl, rfl⟩

theorem symm {m n : ScopedMap K V} (h : m.Alike n) : n.Alike m := ⟨h.visible.symm, h.undo.symm⟩

theorem trans {m n p : ScopedMap K V} (h : m.Alike n) (h' : n.Alike p) : m.Alike p :=
  ⟨h.visible.trans h'.visible, h.undo.trans h'.undo⟩

theorem get? [Std.TransOrd K] {m n : ScopedMap K V} (h : m.Alike n) (k : K) :
    m.get? k = n.get? k :=
  h.visible.getElem?_eq

end Alike

variable [Std.TransOrd K] [Std.LawfulEqOrd K]

/-- Maps with the same values at all keys have the same entries. -/
theorem equiv_of_getElem? {s t : Std.TreeMap K V}
    (h : ∀ k : K, s[k]? = t[k]?) : s.Equiv t := by
  have distinct (t : Std.TreeMap K V) : t.toList.Nodup :=
    t.distinct_keys_toList.imp fun hne heq => hne (by rw [heq]; exact Std.ReflOrd.compare_self)
  refine Std.TreeMap.Equiv.of_toList_perm ((List.perm_ext_iff_of_nodup (distinct s) (distinct t)).2 ?_)
  rintro ⟨k, v⟩
  rw [Std.TreeMap.mem_toList_iff_getElem?_eq_some, Std.TreeMap.mem_toList_iff_getElem?_eq_some, h]

/-! ### What undoing a log does -/

/-- Undoing entries with distinct keys gives each of these keys its old value and leaves all others
alone. -/
theorem getElem?_foldl_restore (entries : List (K × Option V))
    (hd : entries.Pairwise fun a b => ¬compare a.1 b.1 = .eq) (visible : Std.TreeMap K V) (k : K) :
    (entries.foldl (fun t e => restore t e.1 e.2) visible)[k]? =
      match entries.find? fun e => compare e.1 k == .eq with
      | some e => e.2
      | none => visible[k]? := by
  induction entries generalizing visible with
  | nil => rfl
  | cons e rest ih =>
    obtain ⟨key, old⟩ := e
    rw [List.pairwise_cons] at hd
    rw [List.foldl_cons, ih hd.2, List.find?_cons]
    by_cases hk : compare key k = .eq
    · -- no later entry has the key again
      have hnone : rest.find? (fun e => compare e.1 k == .eq) = none := by
        rw [List.find?_eq_none]
        intro e he heq
        obtain rfl : key = k := Std.LawfulEqOrd.eq_of_compare hk
        obtain heq : e.1 = key := Std.LawfulEqOrd.eq_of_compare (by simpa using heq)
        exact hd.1 e he (by rw [heq]; exact Std.ReflOrd.compare_self)
      rw [hnone]
      cases old <;>
        simp only [restore, Std.TreeMap.getElem?_insert, Std.TreeMap.getElem?_erase, hk, if_true,
          beq_self_eq_true]
    · have hrestore : (restore visible key old)[k]? = visible[k]? := by
        cases old <;>
          simp only [restore, Std.TreeMap.getElem?_insert, Std.TreeMap.getElem?_erase, hk, if_false]
      simp only [hrestore, beq_eq_false_iff_ne.2 hk]

/-- Undoing a log gives the keys in it their old values and leaves all others alone. -/
theorem getElem?_undone (log : Std.TreeMap K (Option V))
    (visible : Std.TreeMap K V) (k : K) :
    (log.foldl restore visible)[k]? = (log[k]?).getD visible[k]? := by
  rw [Std.TreeMap.foldl_eq_foldl_toList, getElem?_foldl_restore _ log.distinct_keys_toList]
  cases hfind : log.toList.find? (fun e => compare e.1 k == .eq) with
  | none =>
    have hlog : log[k]? = none :=
      Std.TreeMap.getElem?_eq_none (Std.TreeMap.find?_toList_eq_none_iff_not_mem.1 hfind)
    rw [hlog]
    rfl
  | some e =>
    obtain ⟨key, old⟩ := e
    have hlog := Std.TreeMap.find?_toList_eq_some_iff_getKey?_eq_some_and_getElem?_eq_some.1 hfind
    rw [hlog.2]
    rfl

/-! ### Each operation, and what is left of it when the innermost group is closed -/

omit [Std.LawfulEqOrd K] in
/-- A key that has been written has its new value, and all others have theirs. -/
theorem get?_insert (m : ScopedMap K V) (scope : Scope) (k a : K) (v : V) :
    (m.insert scope k v).get? a = if compare k a = .eq then some v else m.get? a := by
  rw [get?, visible_insert, Std.TreeMap.getElem?_insert, get?]

theorem Alike.endGroup {m n : ScopedMap K V} (h : m.Alike n) : m.endGroup.Alike n.endGroup := by
  cases hm : m.undo with
  | nil =>
    rw [endGroup_of_depth_eq_zero (by simp [depth, hm]),
      endGroup_of_depth_eq_zero (by simp [depth, ← h.undo, hm])]
    exact h
  | cons log outer =>
    rw [endGroup_of_undo hm, endGroup_of_undo (h.undo ▸ hm)]
    refine ⟨equiv_of_getElem? fun k => ?_, rfl⟩
    rw [getElem?_undone, getElem?_undone, h.visible.getElem?_eq]

/-- Of the opening of a group nothing is left. -/
theorem endGroup_beginGroup (m : ScopedMap K V) : m.beginGroup.endGroup.Alike m := by
  rw [endGroup_of_undo (m := m.beginGroup) rfl]
  refine ⟨equiv_of_getElem? fun k => ?_, rfl⟩
  rw [getElem?_undone]
  simp [beginGroup]

/-- Of a local write nothing is left. -/
theorem endGroup_insertLocal {m : ScopedMap K V} (h : 0 < m.depth) (k : K) (v : V) :
    (m.insertLocal k v).endGroup.Alike m.endGroup := by
  cases hm : m.undo with
  | nil => simp [depth, hm] at h
  | cons log outer =>
    have hwrite : m.insertLocal k v =
        { visible := m.visible.insert k v
          undo := (if log.contains k then log else log.insert k m.visible[k]?) :: outer } := by
      simp [insertLocal, hm]
    rw [hwrite, endGroup_of_undo rfl, endGroup_of_undo hm]
    refine ⟨equiv_of_getElem? fun a => ?_, rfl⟩
    rw [getElem?_undone, getElem?_undone, Std.TreeMap.getElem?_insert]
    by_cases hlog : log.contains k
    · -- an earlier write in the group has saved the old value already
      rw [if_pos hlog]
      by_cases ha : compare k a = .eq
      · obtain rfl : k = a := Std.LawfulEqOrd.eq_of_compare ha
        rw [Std.TreeMap.contains_eq_isSome_getElem?, Option.isSome_iff_exists] at hlog
        obtain ⟨old, hold⟩ := hlog
        simp only [hold, Option.getD_some]
      · rw [if_neg ha]
    · rw [if_neg hlog, Std.TreeMap.getElem?_insert]
      by_cases ha : compare k a = .eq
      · obtain rfl : k = a := Std.LawfulEqOrd.eq_of_compare ha
        -- the write itself has saved the old value
        have hnone : log[k]? = none :=
          Std.TreeMap.getElem?_eq_none (by simpa using hlog)
        simp only [ha, if_true, Option.getD_some, hnone, Option.getD_none]
      · simp only [ha, if_false]

/-- Of a global write everything is left. -/
theorem endGroup_insertGlobal {m : ScopedMap K V} (h : 0 < m.depth) (k : K) (v : V) :
    (m.insertGlobal k v).endGroup.Alike (m.endGroup.insertGlobal k v) := by
  cases hm : m.undo with
  | nil => simp [depth, hm] at h
  | cons log outer =>
    -- the logs forget the key, so that closing the group does not bring its old value back
    have hwrite : (m.insertGlobal k v).undo = log.erase k :: outer.map (·.erase k) := by
      simp [insertGlobal, hm]
    rw [endGroup_of_undo hwrite, endGroup_of_undo hm]
    refine ⟨equiv_of_getElem? fun a => ?_, rfl⟩
    simp only [insertGlobal]
    rw [getElem?_undone, Std.TreeMap.getElem?_erase, Std.TreeMap.getElem?_insert,
      Std.TreeMap.getElem?_insert, getElem?_undone]
    by_cases ha : compare k a = .eq
    · simp only [ha, if_true, Option.getD_none]
    · simp only [ha, if_false]

/-! ### Sequences of operations -/

/-- An operation on maps under grouping. -/
inductive Operation (K : Type u) (V : Type v) where
  | insertLocal (k : K) (v : V)
  | insertGlobal (k : K) (v : V)
  | beginGroup
  | endGroup

/-- Performs an operation on a scoped map. -/
def perform (m : ScopedMap K V) : Operation K V → ScopedMap K V
  | .insertLocal k v => m.insertLocal k v
  | .insertGlobal k v => m.insertGlobal k v
  | .beginGroup => m.beginGroup
  | .endGroup => m.endGroup

/-- Performs an operation on a stack of complete maps. -/
def performOnLayers (l : Layers (Std.TreeMap K V)) : Operation K V → Layers (Std.TreeMap K V)
  | .insertLocal k v => l.mapCurrent (·.insert k v)
  | .insertGlobal k v => l.mapAll (·.insert k v)
  | .beginGroup => l.beginGroup
  | .endGroup => l.endGroup?.getD l

/-- A scoped map mirrors a stack of complete maps if the same entries can be seen in both, now and after
closing any number of groups. -/
def Mirrors : ScopedMap K V → Std.TreeMap K V → List (Std.TreeMap K V) → Prop
  | m, current, [] => m.depth = 0 ∧ m.visible.Equiv current
  | m, current, next :: outer =>
    0 < m.depth ∧ m.visible.Equiv current ∧ Mirrors m.endGroup next outer

namespace Mirrors

omit [Std.TransOrd K] [Std.LawfulEqOrd K] in
theorem visible {m : ScopedMap K V} {current : Std.TreeMap K V} {outer : List (Std.TreeMap K V)}
    (h : m.Mirrors current outer) : m.visible.Equiv current := by
  cases outer with
  | nil => exact h.2
  | cons next outer => exact h.2.1

omit [Std.TransOrd K] [Std.LawfulEqOrd K] in
theorem depth {m : ScopedMap K V} {current : Std.TreeMap K V} {outer : List (Std.TreeMap K V)}
    (h : m.Mirrors current outer) : m.depth = outer.length := by
  induction outer generalizing m current with
  | nil => exact h.1
  | cons next outer ih =>
    obtain ⟨hpos, -, hrest⟩ := h
    have := ih hrest
    rw [depth_endGroup] at this
    simp only [List.length_cons]
    omega

/-- A scoped map that cannot be told apart from one that mirrors a stack mirrors it too. -/
theorem of_alike {m n : ScopedMap K V} {current : Std.TreeMap K V} {outer : List (Std.TreeMap K V)}
    (ha : m.Alike n) (h : n.Mirrors current outer) : m.Mirrors current outer := by
  have hdepth : m.depth = n.depth := by simp [ScopedMap.depth, ha.undo]
  induction outer generalizing m n current with
  | nil => exact ⟨by rw [hdepth, h.1], ha.visible.trans h.2⟩
  | cons next outer ih =>
    obtain ⟨hpos, hvis, hrest⟩ := h
    exact ⟨by omega, ha.visible.trans hvis,
      ih ha.endGroup hrest (by simp only [depth_endGroup, hdepth])⟩

theorem insertGlobal {m : ScopedMap K V} {current : Std.TreeMap K V}
    {outer : List (Std.TreeMap K V)} (h : m.Mirrors current outer) (k : K) (v : V) :
    (m.insertGlobal k v).Mirrors (current.insert k v) (outer.map (·.insert k v)) := by
  induction outer generalizing m current with
  | nil => exact ⟨by simpa using h.1, h.2.insert k v⟩
  | cons next outer ih =>
    obtain ⟨hpos, hvis, hrest⟩ := h
    refine ⟨by simpa using hpos, hvis.insert k v, ?_⟩
    -- the write outlasts the group, and so the map mirrors the rest of the stack after the same write
    exact of_alike (endGroup_insertGlobal hpos k v) (ih hrest)

theorem insertLocal {m : ScopedMap K V} {current : Std.TreeMap K V}
    {outer : List (Std.TreeMap K V)} (h : m.Mirrors current outer) (k : K) (v : V) :
    (m.insertLocal k v).Mirrors (current.insert k v) outer := by
  have hvis : (m.insertLocal k v).visible.Equiv (current.insert k v) := by
    rw [show m.insertLocal k v = m.insert .inner k v from rfl, visible_insert]
    exact h.visible.insert k v
  cases outer with
  | nil => exact ⟨by simpa using h.1, hvis⟩
  | cons next outer =>
    obtain ⟨hpos, -, hrest⟩ := h
    exact ⟨by simpa using hpos, hvis, of_alike (endGroup_insertLocal hpos k v) hrest⟩

/-- Every operation keeps a scoped map and a stack of complete maps in step. -/
theorem perform {m : ScopedMap K V} {l : Layers (Std.TreeMap K V)}
    (h : m.Mirrors l.current l.outer) (o : Operation K V) :
    (m.perform o).Mirrors (performOnLayers l o).current (performOnLayers l o).outer := by
  obtain ⟨current, outer⟩ := l
  cases o with
  | insertLocal k v => exact h.insertLocal k v
  | insertGlobal k v => exact h.insertGlobal k v
  | beginGroup => exact ⟨by simp [ScopedMap.perform], h.visible, of_alike (endGroup_beginGroup m) h⟩
  | endGroup =>
    cases outer with
    | nil =>
      simp only [ScopedMap.perform, endGroup_of_depth_eq_zero h.1]
      exact h
    | cons next outer => exact h.2.2

end Mirrors

/-- What can be seen of a scoped map is what can be seen of a stack of complete maps. -/
structure LooksLike (m : ScopedMap K V) (l : Layers (Std.TreeMap K V)) : Prop where
  get? : ∀ k, m.get? k = l.current[k]?
  entries : m.entries = l.current.toList
  size : m.size = l.current.size
  depth : m.depth = l.depth
  /-- Closing a group fails in both or in none, and where it fails it changes nothing. -/
  endGroup : (m.endGroup? = none ↔ l.endGroup? = none) ∧ (m.endGroup? = none → m.endGroup = m)

omit [Std.LawfulEqOrd K] in
theorem Mirrors.looksLike {m : ScopedMap K V} {l : Layers (Std.TreeMap K V)}
    (h : m.Mirrors l.current l.outer) : m.LooksLike l where
  get? _ := h.visible.getElem?_eq
  entries := h.visible.toList_eq
  size := h.visible.size_eq
  depth := h.depth
  endGroup := by
    have hl : l.endGroup? = none ↔ l.outer.length = 0 := by
      unfold Layers.endGroup?
      split <;> simp_all
    refine ⟨?_, fun hnone => endGroup_of_depth_eq_zero ((endGroup?_eq_none_iff m).1 hnone)⟩
    rw [endGroup?_eq_none_iff, hl, h.depth]

/-- **Scoped maps are stacks of complete maps.** From any initial content, after any sequence of local
and global writes, openings and closings, a scoped map looks like the stack of complete maps on which
the same sequence was performed. -/
theorem looksLike_foldl_perform (start : Std.TreeMap K V) (operations : List (Operation K V)) :
    (operations.foldl perform { visible := start }).LooksLike
      (operations.foldl performOnLayers { current := start }) := by
  -- the induction goes through all pairs of a map and a stack that are in step
  suffices h : ∀ (m : ScopedMap K V) (l : Layers (Std.TreeMap K V)), m.Mirrors l.current l.outer →
      (operations.foldl perform m).Mirrors (operations.foldl performOnLayers l).current
        (operations.foldl performOnLayers l).outer from
    (h { visible := start } { current := start } ⟨rfl, .rfl⟩).looksLike
  induction operations with
  | nil => exact fun _ _ h => h
  | cons o rest ih => exact fun m l h => ih (m.perform o) (performOnLayers l o) (h.perform o)

/-- A global write between two local ones outlives the group of all three. -/
theorem get?_global_between_locals :
    ([.beginGroup, .insertLocal 1 2, .insertGlobal 1 3, .insertLocal 1 4, .endGroup].foldl perform
      ({} : ScopedMap Nat Nat)).get? 1 = some 3 := by
  rw [(looksLike_foldl_perform ∅ _).get?]
  simp [performOnLayers, Layers.beginGroup, Layers.mapCurrent, Layers.mapAll, Layers.endGroup?]

end ScopedMap

end Gullet
